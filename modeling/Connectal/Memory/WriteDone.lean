import Connectal.Memory.WriteData
import Connectal.Memory.TagLife
import Connectal.Memory.RequestOrder

/-! Completions of the write server. Renamed requests are numbered like the
allocations of the tag generator, and every queue on the way holds a stretch of
their list. The completion table is indexed by tag alone, so it is right only as
long as no record is overwritten before it has been looked up. -/
namespace Connectal

open Rules

namespace MemWriteInternal

variable {numClients numTags tsz addrWidth : Nat} {Data : Type} {beatShift numMMUs : Nat}
  {s s' : MemWriteInternal numClients numTags tsz addrWidth Data}
  {trace : List (Event numClients addrWidth Data)}

/-- Requests that were accepted from the clients, in order. -/
def loaded (trace : List (Event numClients addrWidth Data)) : List (LRec numClients) :=
  trace.filterMap fun | .loaded client req => some ⟨req, client⟩ | _ => none

/-- Requests that got a tag of their own, in order. -/
def renamed (trace : List (Event numClients addrWidth Data)) : List (RRec numClients addrWidth) :=
  trace.filterMap fun | .renamed r => some r | _ => none

/-- Acknowledgements of the memory. -/
def acked (trace : List (Event numClients addrWidth Data)) : List (BitVec 6) :=
  trace.filterMap fun | .acked tag => some tag | _ => none

/-- Completions told to the clients, in order. -/
def done (trace : List (Event numClients addrWidth Data)) : List (RResp numClients) :=
  trace.filterMap fun | .done client tag => some ⟨tag, client⟩ | _ => none

/-- Tags of the bursts whose last beat the memory has received. -/
def landed (trace : List (Event numClients addrWidth Data)) : List (BitVec 6) :=
  ((sent trace).filter MemData.last).map MemData.tag

/-- The completion that a request is owed. -/
def resp (r : RRec numClients addrWidth) : RResp numClients := ⟨r.req.tag, r.client⟩

/-- The memory acknowledges each burst at most once, and not before it has
received the burst's last beat. -/
def AcksReceived : Machine.Contract (MemWriteInternal numClients numTags tsz addrWidth Data)
    (Action numClients addrWidth Data) (Event numClients addrWidth Data)
  | trace, _, .writeDonePut tag => (acked trace).count tag < (landed trace).count tag
  | _, _, _ => True

instance (trace : List (Event numClients addrWidth Data))
    (s : MemWriteInternal numClients numTags tsz addrWidth Data)
    (action : Action numClients addrWidth Data) : Decidable (AcksReceived trace s action) :=
  match action with
  | .writeDonePut _ => inferInstanceAs (Decidable (_ < _))
  | .loadClient _ _ | .checkMmuResp _ | .writeDoneComp0 | .writeDoneComp1 | .clientdata _ _ | .memdata
  | .writeReqGet | .writeDataGet | .dmaError | .tagRule _ => .isTrue trivial

/-- The first beat of a burst does not overwrite the record of a completed tag
that has yet to be looked up. -/
def KeepsRecord (s : MemWriteInternal numClients numTags tsz addrWidth Data) : Prop :=
  s.firstReg = true →
    ∀ dreq ∈ s.dreqFifo.items.head?, dreq.renameTag.setWidth tsz ∉ s.tagGen.compFifo.items

instance (s : MemWriteInternal numClients numTags tsz addrWidth Data) : Decidable (KeepsRecord s) :=
  inferInstanceAs (Decidable (_ → ∀ dreq ∈ s.dreqFifo.items.head?, _))

/-- A memory that acknowledges what it received, and no overwritten record. -/
def AcksReceivedKeepingRecords :
    Machine.Contract (MemWriteInternal numClients numTags tsz addrWidth Data)
      (Action numClients addrWidth Data) (Event numClients addrWidth Data)
  | trace, s, action =>
    AcksReceived trace s action ∧ (action matches .memdata → KeepsRecord s)

instance (trace : List (Event numClients addrWidth Data))
    (s : MemWriteInternal numClients numTags tsz addrWidth Data)
    (action : Action numClients addrWidth Data) :
    Decidable (AcksReceivedKeepingRecords trace s action) :=
  inferInstanceAs (Decidable (_ ∧ _))

/-- Completions are told to the right client, under the client's own tag, in
the order of that client's requests, once for each request and only after the
memory has acknowledged it; and no acknowledgement is lost on the way. -/
structure DoneCorrect (trace : List (Event numClients addrWidth Data))
    (s : MemWriteInternal numClients numTags tsz addrWidth Data) : Prop where
  inOrder : done trace <+: (handed trace).map resp
  perClient : ∀ client, ((done trace).filter fun d => d.client = client).map RResp.origTag <+:
    ((loaded trace).filter fun l => l.client = client).map fun l => l.req.tag
  afterAck : ∀ tag, (((handed trace).take (done trace).length).map RRec.renameTag).count tag ≤
    (acked trace).count tag
  noLoss : 2 ^ tsz ≤ numTags → (acked trace).length =
    (done trace).length + (s.respFifos.out 1).items.length + s.tagGen.compFifo.items.length +
      TagGen.onesCount s.tagGen.compState + s.tagGen.retFifo.items.length

/-- What has happened so far, stage by stage. -/
structure Log (numClients addrWidth : Nat) where
  loaded : List (LRec numClients)
  renamed : List (RRec numClients addrWidth)
  handed : List (RRec numClients addrWidth)
  landed : List (BitVec 6)
  acked : List (BitVec 6)
  done : List (RResp numClients)

def log (trace : List (Event numClients addrWidth Data)) : Log numClients addrWidth :=
  ⟨loaded trace, renamed trace, handed trace, landed trace, acked trace, done trace⟩

/-- The history after one more event. -/
def Log.add (H : Log numClients addrWidth) : Event numClients addrWidth Data → Log numClients addrWidth
  | .loaded client req => { H with loaded := H.loaded ++ [⟨req, client⟩] }
  | .renamed r => { H with renamed := H.renamed ++ [r] }
  | .handed r => { H with handed := H.handed ++ [r] }
  | .sent d => { H with landed := H.landed ++ if d.last then [d.tag] else [] }
  | .acked tag => { H with acked := H.acked ++ [tag] }
  | .done client tag => { H with done := H.done ++ [⟨tag, client⟩] }
  | .refused _ _ _ | .supplied _ _ | .reported _ => H

theorem log_append (trace events : List (Event numClients addrWidth Data)) :
    log (trace ++ events) = events.foldl Log.add (log trace) := by
  induction events generalizing trace with
  | nil => rw [List.append_nil, List.foldl_nil]
  | cons e rest ih =>
    rw [List.append_cons, ih, List.foldl_cons]
    congr 1
    cases e with
    | sent d =>
      cases hLast : d.last <;>
        simp [log, Log.add, loaded, renamed, handed, landed, sent, acked, done, hLast]
    | _ => simp [log, Log.add, loaded, renamed, handed, landed, sent, acked, done]

/-- How far the requests have come: `handed` to the memory, `moved` with all
their beats, `landed` in the memory. -/
structure Places where
  ledger : TagLedger
  handed : Nat
  moved : Nat
  landed : Nat

/-- Queues, tables and history in terms of the numbered requests. -/
structure DoneInv (beatShift : Nat) (H : Log numClients addrWidth)
    (s : MemWriteInternal numClients numTags tsz addrWidth Data) (P : Places) : Prop where
  path : s.toRequestPath.Inv P.ledger H.loaded H.renamed P.handed
  handedEq : H.handed = H.renamed.take P.handed
  dreqs : s.dreqFifo.items = (segment H.renamed P.moved P.handed).map (RRec.dreq beatShift)
  landed_le : P.landed ≤ P.moved
  moved_le : P.moved ≤ P.handed
  counter : s.firstReg = false → s.lastReg = true → s.burstReg = 1
  midBurst : s.firstReg = false → ∃ r, H.renamed[P.moved]? = some r ∧
    s.respFifos.mem (tagOf tsz P.moved) = resp r
  table : ∀ i r, H.renamed[i]? = some r → P.ledger.completed ≤ i → i < P.moved →
    s.respFifos.mem (tagOf tsz i) = resp r
  answers : (s.respFifos.out 1).items =
    (segment H.renamed H.done.length P.ledger.completed).map resp
  doneEq : H.done = (H.renamed.take H.done.length).map resp
  done_le : H.done.length ≤ P.ledger.completed
  landedEq : H.landed = (H.renamed.take P.landed).map RRec.renameTag
  queued : (s.memDataFifo.items.filter MemData.last).map MemData.tag =
    (segment H.renamed P.landed P.moved).map RRec.renameTag
  ackedPerm : H.acked.Perm (P.ledger.returned.map (busTag tsz))
  returned_lt : ∀ n ∈ P.ledger.returned, n < P.landed

namespace DoneInv

variable {H : Log numClients addrWidth} {P : Places} {events : List (Event numClients addrWidth Data)}
  (h : DoneInv beatShift H s P)

include h

/-- An acknowledgement that the contract admits names a request that is out
and whose burst has landed. -/
theorem exists_out {tag : BitVec 6}
    (hOk : H.acked.count tag < H.landed.count tag) :
    ∃ n, P.ledger.Out n ∧ n < P.landed ∧ busTag tsz n = tag := by
  have hLanded := h.landed_le.trans (h.moved_le.trans h.path.handed_le)
  rw [h.ackedPerm.count_eq, h.landedEq, h.path.busTags hLanded] at hOk
  obtain ⟨n, hn, hNot, hTag⟩ := exists_unused hOk
  have hGiven := h.path.given
  exact ⟨n, ⟨by omega, hNot⟩, hn, hTag⟩

theorem retired_le : P.ledger.retired ≤ P.landed := by
  by_contra hLt
  have := h.returned_lt P.landed (TagLedger.mem_returned_of_lt (by omega))
  omega

/-- The oldest burst with beats to move belongs to the request at `moved`. -/
theorem oldest {dreq : DRec numClients} {rest : List (DRec numClients)}
    (hDreq : s.dreqFifo.items = dreq :: rest) :
    ∃ r, dreq = r.dreq beatShift ∧ P.moved < P.handed ∧ H.renamed[P.moved]? = some r ∧
      rest = (segment H.renamed (P.moved + 1) P.handed).map (RRec.dreq beatShift) := by
  obtain ⟨r, others, hSegment, rfl, rfl⟩ := List.map_eq_cons_iff.mp (h.dreqs.symm.trans hDreq)
  obtain ⟨hLt, hGet, rfl⟩ := segment_pop hSegment
  exact ⟨r, rfl, hLt, hGet, rfl⟩

/-- The tag of a request that waits for its beats is not that of an older
request whose completion is still to be looked up. -/
theorem tag_ne (hMoved : P.moved < P.handed)
    (hKeep : tagOf tsz P.moved ∉ s.tagGen.compFifo.items) {i : Nat}
    (hLow : P.ledger.completed ≤ i) (hHigh : i < P.moved) : tagOf tsz i ≠ tagOf tsz P.moved :=
  h.path.tag_ne hLow hHigh (h.retired_le.trans h.landed_le)
    (Nat.lt_of_lt_of_le hMoved h.path.handed_le) hKeep

/-- After a beat, the table has the record of the burst that the beat belongs to. -/
theorem respMem_self {r : RRec numClients addrWidth}
    (hGet : H.renamed[P.moved]? = some r)
    (hTag : r.renameTag.setWidth tsz = tagOf tsz P.moved) :
    s.respMem (r.dreq beatShift) (tagOf tsz P.moved) = resp r := by
  unfold respMem
  split
  · rw [← hTag]
    simp [RRec.dreq, resp]
  · next hFirst =>
    obtain ⟨r', hGet', hMem⟩ := h.midBurst (by simpa using hFirst)
    rw [hMem, Option.some.inj (hGet.symm.trans hGet')]

theorem respMem_older {r q : RRec numClients addrWidth}
    (hMoved : P.moved < P.handed) (hTag : r.renameTag.setWidth tsz = tagOf tsz P.moved)
    (hKeep : s.firstReg = true → tagOf tsz P.moved ∉ s.tagGen.compFifo.items) {i : Nat}
    (hGet : H.renamed[i]? = some q) (hLow : P.ledger.completed ≤ i) (hHigh : i < P.moved) :
    s.respMem (r.dreq beatShift) (tagOf tsz i) = resp q := by
  unfold respMem
  split
  · next hFirst =>
    simp only [RRec.dreq, hTag]
    rw [Function.update_of_ne (h.tag_ne hMoved (hKeep hFirst) hLow hHigh)]
    exact h.table i q hGet hLow hHigh
  · exact h.table i q hGet hLow hHigh

theorem counter_last (hShift : beatShift < 8)
    (r : RRec numClients addrWidth) (hLast : s.last (r.dreq beatShift) = true) :
    s.burstLen beatShift (r.dreq beatShift) - 1 = 0 := by
  unfold last at hLast
  unfold burstLen
  split at hLast
  · next hFirst =>
    simp only [RRec.dreq, beq_iff_eq] at hLast
    have hPow : 2 ^ beatShift < 2 ^ 8 := Nat.pow_lt_pow_right (by decide) hShift
    apply BitVec.eq_of_toNat_eq
    rw [if_pos hFirst]
    simp only [RRec.dreq, hLast, BitVec.toNat_sub, BitVec.toNat_ushiftRight, BitVec.toNat_ofNat,
      Nat.mod_eq_of_lt hPow, Nat.shiftRight_eq_div_pow, Nat.div_self (Nat.two_pow_pos beatShift)]
    rfl
  · next hFirst =>
    rw [if_neg hFirst, h.counter (by simpa using hFirst) hLast]
    rfl

/-- Moving one beat. The burst is moved when this was its last beat. -/
theorem moved (hWidth : tsz ≤ 6) (hShift : beatShift < 8)
    (hKeep : KeepsRecord s) (hs : Effect s beatShift .memdata s' events) :
    ∃ P', DoneInv beatShift (events.foldl Log.add H) s' P' := by
  cases hs with
  | moved dreq rest d q mq hDreq hData hMem =>
  rw [List.foldl_nil]
  obtain ⟨r, rfl, hMoved, hGet, hRest⟩ := h.oldest hDreq
  have hTag := h.path.renameTag_setWidth hWidth hGet
  have hKeep' : s.firstReg = true → tagOf tsz P.moved ∉ s.tagGen.compFifo.items := by
    intro hFirst
    have := hKeep hFirst (r.dreq beatShift) (by simp [hDreq])
    rwa [show (r.dreq beatShift).renameTag.setWidth tsz = tagOf tsz P.moved from hTag] at this
  have hSelf := h.respMem_self hGet hTag
  by_cases hLast : s.last (r.dreq beatShift) = true
  · have hZero := h.counter_last hShift r hLast
    have hFirst : (s.burstLen beatShift (r.dreq beatShift) - 1 == 0) = true := beq_iff_eq.mpr hZero
    refine ⟨{ P with moved := P.moved + 1 }, { h with
      dreqs := ?_, landed_le := Nat.le_succ_of_le h.landed_le, moved_le := hMoved
      counter := fun hNot => absurd (hFirst.symm.trans hNot) (by decide)
      midBurst := fun hNot => absurd (hFirst.symm.trans hNot) (by decide), table := ?_, queued := ?_ }⟩
    · simp only [hLast, if_true, hRest]
    · intro i q' hq' hLow hHigh
      rcases Nat.lt_succ_iff_lt_or_eq.mp hHigh with hHigh | rfl
      · exact h.respMem_older hMoved hTag hKeep' hq' hLow hHigh
      · exact hSelf.trans (congrArg resp (Option.some.inj (hGet.symm.trans hq')))
    · rw [segment_push h.landed_le hGet, List.map_append, ← h.queued, hMem, List.filter_append,
        List.map_append, hLast]
      rfl
  · rw [Bool.not_eq_true] at hLast
    refine ⟨P, { h with
      dreqs := ?_, counter := ?_, midBurst := ?_, table := ?_, queued := ?_ }⟩
    · simp only [hLast, Bool.false_eq_true, if_false, h.dreqs]
    · intro _ hOne
      exact beq_iff_eq.mp hOne
    · exact fun _ => ⟨r, hGet, hSelf⟩
    · intro i q' hq' hLow hHigh
      exact h.respMem_older hMoved hTag hKeep' hq' hLow hHigh
    · simp [hMem, hLast, h.queued]

theorem renamed {pa : BitVec addrWidth} (hs : Effect s beatShift (.checkMmuResp pa) s' events) :
    DoneInv beatShift (events.foldl Log.add H) s' { P with ledger := P.ledger.give } := by
  cases hs with
  | renamed _ l rest tag tagGen q hl hTag hq =>
  dsimp only [List.foldl_cons, List.foldl_nil, Log.add]
  have hHanded := h.path.handed_le
  have hMoved := h.moved_le
  have hLanded := h.landed_le
  have hRetired := h.retired_le
  have hCompleted := h.path.tags.completed_le
  have hDone := h.done_le
  refine { h with
    path := h.path.rename hl hTag hq, handedEq := ?_, dreqs := ?_, midBurst := ?_, table := ?_
    answers := ?_, doneEq := ?_, landedEq := ?_, queued := ?_ }
  · rw [h.handedEq, List.take_append_of_le_length hHanded]
  · rw [h.dreqs, segment_append hHanded]
  · intro hFirst
    obtain ⟨r, hr, hMem⟩ := h.midBurst hFirst
    exact ⟨r, List.getElem?_append_left (List.getElem_of_getElem? hr).1 ▸ hr, hMem⟩
  · intro i r hr hLow hHigh
    refine h.table i r ?_ hLow hHigh
    rwa [List.getElem?_append_left (by simp only at hHigh; omega)] at hr
  · simp only [TagLedger.give_completed]
    rw [h.answers, segment_append (by omega)]
  · dsimp only
    rw [List.take_append_of_le_length (by omega)]
    exact h.doneEq
  · dsimp only
    rw [h.landedEq, List.take_append_of_le_length (by omega)]
  · dsimp only
    rw [h.queued, segment_append (by omega)]

theorem handed (hs : Effect s beatShift .writeReqGet s' events) :
    DoneInv beatShift (events.foldl Log.add H) s' { P with handed := P.handed + 1 } := by
  cases hs with
  | handed r q dq hq hDreq =>
  dsimp only [List.foldl_cons, List.foldl_nil, Log.add]
  obtain ⟨hGet, hPath⟩ := h.path.hand hq
  refine { h with path := hPath, handedEq := ?_, dreqs := ?_, moved_le := ?_ }
  · rw [List.take_add_one, hGet, ← h.handedEq]
    rfl
  · rw [hDreq, h.dreqs, segment_push h.moved_le hGet, List.map_append]
    rfl
  · exact Nat.le_succ_of_le h.moved_le

/-- A beat reaches the memory; with its last beat a burst has landed. -/
theorem sent (hs : Effect s beatShift .writeDataGet s' events) :
    ∃ P', DoneInv beatShift (events.foldl Log.add H) s' P' := by
  cases hs with
  | sent d q hq =>
  dsimp only [List.foldl_cons, List.foldl_nil, Log.add]
  have hQueued := h.queued
  rw [hq] at hQueued
  by_cases hLast : d.last = true
  · rw [List.filter_cons_of_pos hLast, List.map_cons] at hQueued
    obtain ⟨r, others, hSegment, hTag, hRest⟩ := List.map_eq_cons_iff.mp hQueued.symm
    obtain ⟨hLt, hGet, rfl⟩ := segment_pop hSegment
    refine ⟨{ P with landed := P.landed + 1 }, { h with
      landed_le := hLt, landedEq := ?_, queued := hRest.symm, returned_lt := ?_ }⟩
    · rw [if_pos hLast, List.take_add_one, hGet, h.landedEq, List.map_append, ← hTag]
      rfl
    · intro n hn
      exact Nat.lt_succ_of_lt (h.returned_lt n hn)
  · rw [List.filter_cons_of_neg hLast] at hQueued
    exact ⟨P, { h with landedEq := by simp [hLast, h.landedEq], queued := hQueued }⟩

theorem acked (hWidth : tsz ≤ 6) {tag : BitVec 6}
    (hOk : H.acked.count tag < H.landed.count tag) (hs : Effect s beatShift (.writeDonePut tag) s' events) :
    ∃ P', DoneInv beatShift (events.foldl Log.add H) s' P' := by
  cases hs with
  | acked _ tagGen hTag =>
  dsimp only [List.foldl_cons, List.foldl_nil, Log.add]
  obtain ⟨n, hOut, hLanded, rfl⟩ := h.exists_out hOk
  rw [busTag_setWidth hWidth] at hTag
  refine ⟨{ P with ledger := P.ledger.giveBack n }, { h with
    path := { h.path with tags := TagGen.returnTag_inv h.path.tags hOut hTag }, ackedPerm := ?_, returned_lt := ?_ }⟩
  · rw [TagLedger.returned_giveBack, List.map_append]
    exact h.ackedPerm.append_right _
  · intro m hm
    rw [TagLedger.returned_giveBack, List.mem_append, List.mem_singleton] at hm
    rcases hm with hm | rfl
    · exact h.returned_lt m hm
    · exact hLanded

theorem lookedUp (hs : Effect s beatShift .writeDoneComp0 s' events) :
    DoneInv beatShift (events.foldl Log.add H) s' { P with ledger := P.ledger.complete } := by
  cases hs with
  | lookedUp tag tagGen q hTag hq =>
  rw [List.foldl_nil]
  obtain ⟨hLt, rfl, hInv⟩ := TagGen.complete_inv h.path.tags hTag
  have hRetired := h.retired_le
  have hLanded := h.landed_le
  have hMoved := h.moved_le
  have hHanded := h.path.handed_le
  have hGet : H.renamed[P.ledger.completed]? = some H.renamed[P.ledger.completed] :=
    List.getElem?_eq_getElem (by omega)
  refine { h with path := { h.path with tags := hInv }, table := ?_, answers := ?_, done_le := ?_ }
  · intro i r hr hLow hHigh
    exact h.table i r hr (Nat.le_of_succ_le hLow) hHigh
  · simp only [Function.update_self, TagLedger.complete_completed]
    rw [hq, h.answers, h.table _ _ hGet le_rfl (by omega), segment_push h.done_le hGet,
      List.map_append]
    rfl
  · exact Nat.le_succ_of_le h.done_le

theorem done (hs : Effect s beatShift .writeDoneComp1 s' events) :
    DoneInv beatShift (events.foldl Log.add H) s' P := by
  cases hs with
  | done rv q hq =>
  dsimp only [List.foldl_cons, List.foldl_nil, Log.add]
  obtain ⟨r, others, hSegment, rfl, hRest⟩ := List.map_eq_cons_iff.mp (h.answers.symm.trans hq)
  obtain ⟨hLt, hGet, rfl⟩ := segment_pop hSegment
  refine { h with answers := ?_, doneEq := ?_, done_le := ?_ }
  · simp only [Function.update_self, counting]
    exact hRest.symm
  · simp only [counting]
    rw [List.take_add_one, hGet, List.map_append, ← h.doneEq]
    rfl
  · simp only [counting]
    exact hLt

theorem tagRule {r : TagGen.Rule} (hs : Effect s beatShift (.tagRule r) s' events) :
    ∃ P', DoneInv beatShift (events.foldl Log.add H) s' P' := by
  cases hs with
  | tagRule _ tagGen _ hTag =>
  obtain ⟨L, hInv, hGiven, hCompleted, -, hReturned⟩ := TagGen.runRule_inv h.path.tags hTag
  obtain ⟨given, retired, _, waiting, processed, ones⟩ := L
  subst hCompleted
  refine ⟨{ P with ledger := ⟨given, retired, _, waiting, processed, ones⟩ }, { h with
    path := { h.path with tags := hInv, given := hGiven.trans h.path.given }
    ackedPerm := h.ackedPerm.trans (hReturned.map _).symm, returned_lt := ?_ }⟩
  · intro n hn
    exact h.returned_lt n (hReturned.mem_iff.mp hn)

/-- Requests whose completion was told were handed to the memory long before. -/
theorem done_le_retired : H.done.length ≤ P.ledger.retired :=
  h.done_le.trans h.path.tags.completed_le

theorem done_le_handed : H.done.length ≤ P.handed :=
  h.done_le_retired.trans (h.retired_le.trans (h.landed_le.trans h.moved_le))

theorem take_handed :
    H.handed.take H.done.length = H.renamed.take H.done.length := by
  rw [h.handedEq, List.take_take, Nat.min_eq_left h.done_le_handed]

theorem inOrder : H.done <+: H.handed.map resp := by
  rw [h.doneEq, ← h.take_handed]
  exact (List.take_prefix _ _).map _

theorem perClient (client : Fin numClients) :
    (H.done.filter fun d => d.client = client).map RResp.origTag <+:
      (H.loaded.filter fun l => l.client = client).map fun l => l.req.tag := by
  have hPrefix : H.done <+: H.loaded.map fun l => ⟨l.req.tag, l.client⟩ := by
    rw [h.path.loadedEq, h.doneEq, List.map_append, List.map_map]
    exact ((List.take_prefix _ _).map resp).trans (List.prefix_append _ _)
  have := (hPrefix.filter fun d => d.client = client).map RResp.origTag
  simpa [List.filter_map, Function.comp_def] using this

theorem afterAck (tag : BitVec 6) :
    ((H.handed.take H.done.length).map RRec.renameTag).count tag ≤ H.acked.count tag := by
  rw [h.take_handed, h.ackedPerm.count_eq, h.path.busTags (h.done_le_handed.trans h.path.handed_le),
    TagLedger.returned, List.append_assoc, List.map_append]
  refine ((range_front h.done_le_retired).map (busTag tsz)).sublist.count_le tag |>.trans ?_
  rw [List.count_append]
  exact Nat.le_add_right _ _

/-- Every acknowledged burst is counted in exactly one of the queues. -/
theorem noLoss (hWide : 2 ^ tsz ≤ numTags) :
    H.acked.length = H.done.length + (s.respFifos.out 1).items.length +
      s.tagGen.compFifo.items.length + TagGen.onesCount s.tagGen.compState +
      s.tagGen.retFifo.items.length := by
  have hCompleted := h.path.tags.completed_le
  have hDone := h.done_le
  have hBound : P.ledger.completed ≤ H.renamed.length := hCompleted.trans
    (h.retired_le.trans (h.landed_le.trans (h.moved_le.trans h.path.handed_le)))
  rw [TagGen.onesCount_unary h.path.tags.unary, h.path.tags.ones_eq hWide, h.ackedPerm.length_eq, h.answers,
    h.path.tags.comp, h.path.tags.wait]
  simp only [TagLedger.returned, Rules.segment, List.length_append, List.length_range, List.length_map,
    List.length_range', List.length_drop, List.length_take, Nat.min_eq_left hBound]
  omega

end DoneInv

/-- Every admitted action keeps the requests in their places. -/
theorem effect_doneInv {action : Action numClients addrWidth Data}
    {events : List (Event numClients addrWidth Data)} {P : Places}
    (h : DoneInv beatShift (log trace) s P) (hWidth : tsz ≤ 6) (hShift : beatShift < 8)
    (hOk : AcksReceivedKeepingRecords trace s action) (hs : Effect s beatShift action s' events) :
    ∃ P', DoneInv beatShift (log (trace ++ events)) s' P' := by
  rw [log_append]
  cases action with
  | loadClient client req =>
    cases hs with
    | loaded _ _ q hq => exact ⟨P, { h with path := h.path.load hq }⟩
    | refused => exact ⟨P, { h with path := { h.path with } }⟩
  | checkMmuResp pa => exact ⟨_, h.renamed hs⟩
  | writeDoneComp0 => exact ⟨_, h.lookedUp hs⟩
  | writeDoneComp1 => exact ⟨P, h.done hs⟩
  | clientdata client d =>
    cases hs
    exact ⟨P, { h with }⟩
  | memdata => exact h.moved hWidth hShift (hOk.2 rfl) hs
  | writeReqGet => exact ⟨_, h.handed hs⟩
  | writeDataGet => exact h.sent hs
  | writeDonePut tag => exact h.acked hWidth hOk.1 hs
  | dmaError =>
    cases hs
    exact ⟨P, { h with path := { h.path with } }⟩
  | tagRule r => exact h.tagRule hs

theorem powerUp_doneInv (tagMem : BitVec tsz → Bool) (respMem : BitVec tsz → RResp numClients) :
    DoneInv beatShift (log ([] : List (Event numClients addrWidth Data)))
      (powerUp tagMem respMem : MemWriteInternal numClients numTags tsz addrWidth Data)
      ⟨TagLedger.start, 0, 0, 0⟩ := by
  constructor
  case path => exact RequestPath.Inv.powerUp tagMem
  all_goals
    simp [log, loaded, renamed, MemWriteInternal.handed, landed, MemWriteInternal.sent, acked, done,
      powerUp, RequestPath.powerUp, TagLedger.start, TagLedger.returned, Bram.powerUp, Rules.segment]

/-- One whole request: a burst of one four-byte word from the second client. -/
def oneWord (client : Fin 2) (origTag : BitVec 6) (busTag : BitVec 6) : List (Action 2 12 Unit) :=
  [.loadClient client ⟨3, 64, 4, origTag⟩, .checkMmuResp 64, .writeReqGet,
    .clientdata client ⟨(), 0, false⟩, .memdata, .writeDataGet, .writeDonePut busTag,
    .tagRule .ret, .tagRule .completeRule0, .tagRule .completeRule1]

end MemWriteInternal
end Connectal
