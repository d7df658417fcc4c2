import Connectal.Memory.WriteInternal

/-! The data that the write server sends to the memory. The specification is
a stream: every physical request in turn takes as many of its own client's next
beats as its burst is long. -/
namespace Connectal

open Rules

namespace MemWriteInternal

variable {numClients numTags tsz addrWidth : Nat} {Data : Type} {beatShift numMMUs : Nat}
  {s s' : MemWriteInternal numClients numTags tsz addrWidth Data}
  {trace : List (Event numClients addrWidth Data)}

/-- Physical write requests in the order in which the memory took them. -/
def handed (trace : List (Event numClients addrWidth Data)) : List (RRec numClients addrWidth) :=
  trace.filterMap fun | .handed r => some r | _ => none

/-- Data words fetched from one client, in order. -/
def supplied (trace : List (Event numClients addrWidth Data)) (client : Fin numClients) :
    List Data :=
  trace.filterMap fun
    | .supplied source d => if source = client then some d.data else none
    | _ => none

/-- Beats in the order in which the memory took them. -/
def sent (trace : List (Event numClients addrWidth Data)) : List (MemData Data) :=
  trace.filterMap fun | .sent d => some d | _ => none

/-- Clients send only bursts that are positive multiples of the bus width. -/
def WellFormedRequests (beatShift : Nat) :
    Machine.Contract (MemWriteInternal numClients numTags tsz addrWidth Data)
      (Action numClients addrWidth Data) (Event numClients addrWidth Data)
  | _, _, .loadClient _ req => req.WellFormed beatShift
  | _, _, _ => True

instance (trace : List (Event numClients addrWidth Data))
    (s : MemWriteInternal numClients numTags tsz addrWidth Data)
    (action : Action numClients addrWidth Data) :
    Decidable (WellFormedRequests beatShift trace s action) :=
  match action with
  | .loadClient _ req => inferInstanceAs (Decidable (req.WellFormed beatShift))
  | .checkMmuResp _ | .writeDoneComp0 | .writeDoneComp1 | .clientdata _ _ | .memdata | .writeReqGet
  | .writeDataGet | .writeDonePut _ | .dmaError | .tagRule _ => .isTrue trivial

/-- Beat number `i` of the burst of request `r`. -/
def beat (beatShift : Nat) (r : RRec numClients addrWidth) (i : Nat) (d : Data) : MemData Data :=
  ⟨d, r.renameTag, i + 1 = r.req.beats beatShift⟩

/-- The beats that a list of requests makes of the clients' data, when `sent`
beats of the first request are already gone. Each request takes the next words
of its own client; the stream stops at the first request that lacks data. -/
def streamFrom (beatShift : Nat) : Nat → List (RRec numClients addrWidth) →
    (Fin numClients → List Data) → List (MemData Data)
  | _, [], _ => []
  | sent, r :: rest, data =>
    let due := r.req.beats beatShift - sent
    let words := (data r.client).take due
    words.mapIdx (fun i d => beat beatShift r (sent + i) d) ++
      if words.length = due then
        streamFrom beatShift 0 rest
          (Function.update data r.client ((data r.client).drop due))
      else []

/-- The whole stream, from the first beat of the first request. -/
def stream (beatShift : Nat) (requests : List (RRec numClients addrWidth))
    (data : Fin numClients → List Data) : List (MemData Data) :=
  streamFrom beatShift 0 requests data

variable {rest : List (RRec numClients addrWidth)}

/-- The next beat of the stream belongs to the first request, and takes the
next word of that request's client. -/
theorem streamFrom_next {r : RRec numClients addrWidth}
    {data : Fin numClients → List Data} {sent : Nat} {d : Data} {words : List Data}
    (hSent : sent < r.req.beats beatShift) (hData : data r.client = d :: words) :
    streamFrom beatShift sent (r :: rest) data = beat beatShift r sent d ::
      if sent + 1 = r.req.beats beatShift then
        streamFrom beatShift 0 rest (Function.update data r.client words)
      else streamFrom beatShift (sent + 1) (r :: rest) (Function.update data r.client words) := by
  obtain ⟨due, hDue⟩ : ∃ due, r.req.beats beatShift - sent = due + 1 :=
    ⟨r.req.beats beatShift - sent - 1, by omega⟩
  have hNext : r.req.beats beatShift - (sent + 1) = due := by omega
  split
  · next hLast =>
    have hZero : due = 0 := by omega
    subst hZero
    simp [streamFrom, hDue, hData]
  · next hMore =>
    simp only [streamFrom, hDue, hNext, hData, List.take_succ_cons, List.mapIdx_cons,
      List.length_cons, List.drop_succ_cons, Function.update_self, Function.update_idem,
      List.cons_append, Nat.add_zero, Nat.add_right_cancel_iff]
    congr 2
    congr 1
    funext i d
    rw [Nat.add_right_comm, Nat.add_assoc]

/-- Where the write server stands in the stream. The first `sent` beats of the
oldest unfinished request are gone, and the counters say how many remain. -/
def AtBeat (beatShift : Nat) (s : MemWriteInternal numClients numTags tsz addrWidth Data)
    (sent : Nat) (pending : List (RRec numClients addrWidth)) : Prop :=
  (s.firstReg = true ∧ sent = 0) ∨
    (s.firstReg = false ∧ ∃ r rest, pending = r :: rest ∧ sent < r.req.beats beatShift ∧
      s.burstReg.toNat = r.req.beats beatShift - sent ∧
      s.lastReg = decide (r.req.beats beatShift - sent = 1))

/-- The beats sent so far and the beats that the present state can still send
make up the stream, however requests and data continue. -/
structure DataInv (beatShift : Nat) (trace : List (Event numClients addrWidth Data))
    (s : MemWriteInternal numClients numTags tsz addrWidth Data)
    (sentBeats : Nat) (pending : List (RRec numClients addrWidth)) : Prop where
  lreqs : ∀ l ∈ s.lreqFifo.items, l.req.WellFormed beatShift
  reqs : ∀ r ∈ s.reqFifo.items, r.req.WellFormed beatShift
  wellFormed : ∀ r ∈ pending, r.req.WellFormed beatShift
  dreqs : s.dreqFifo.items = pending.map (RRec.dreq beatShift)
  atBeat : AtBeat beatShift s sentBeats pending
  stream : ∀ (later : List (RRec numClients addrWidth)) (more : Fin numClients → List Data),
    streamFrom beatShift 0 (handed trace ++ later) (fun c => supplied trace c ++ more c) =
      sent trace ++ s.memDataFifo.items ++ streamFrom beatShift sentBeats (pending ++ later)
        (fun c => (s.clientWriteData c).items.map MemData.data ++ more c)

/-- What the counters say about the next beat of the oldest request. -/
theorem AtBeat.next {sent : Nat} {r : RRec numClients addrWidth} (h : AtBeat beatShift s sent (r :: rest))
    (hr : r.req.WellFormed beatShift) : sent < r.req.beats beatShift ∧
    (s.burstLen beatShift (r.dreq beatShift)).toNat = r.req.beats beatShift - sent ∧
    s.last (r.dreq beatShift) = decide (sent + 1 = r.req.beats beatShift) := by
  rcases h with ⟨hFirst, rfl⟩ | ⟨hFirst, r', rest', hEq, hSent, hBurst, hLast⟩
  · refine ⟨hr.beats_pos, ?_, ?_⟩
    · simp [burstLen, hFirst, RRec.dreq, MemRequest.beats]
    · simp only [last, hFirst, if_true, RRec.dreq, hr.single, decide_eq_decide]
      omega
  · obtain ⟨rfl, rfl⟩ := List.cons.inj hEq
    refine ⟨hSent, ?_, ?_⟩
    · simp [burstLen, hFirst, hBurst]
    · simp only [last, hFirst, Bool.false_eq_true, if_false, hLast, decide_eq_decide]
      omega

variable {events : List (Event numClients addrWidth Data)}
  {pending : List (RRec numClients addrWidth)}

/-- Moving one beat advances the stream by exactly that beat. -/
theorem moved_dataInv {sentBeats : Nat} (h : DataInv beatShift trace s sentBeats pending)
    (hs : Effect s beatShift .memdata s' events) :
    ∃ sentBeats' pending', DataInv beatShift (trace ++ events) s' sentBeats' pending' := by
  cases hs with
  | moved dreq rest d q mq hDreq hData hMem =>
  rw [List.append_nil]
  obtain ⟨r, others, rfl, rfl, hRest⟩ := List.map_eq_cons_iff.mp (h.dreqs.symm.trans hDreq)
  have hr := h.wellFormed r (by simp)
  obtain ⟨hSent, hBurst, hLast⟩ := h.atBeat.next hr
  have hBeat : (⟨d.data, r.renameTag, s.last (r.dreq beatShift)⟩ : MemData Data) =
      beat beatShift r sentBeats d.data := by
    rw [beat, hLast]
  have hStep : ∀ (later : List (RRec numClients addrWidth)) (more : Fin numClients → List Data),
      streamFrom beatShift sentBeats (r :: others ++ later)
        (fun c => (s.clientWriteData c).items.map MemData.data ++ more c) =
      beat beatShift r sentBeats d.data ::
        if sentBeats + 1 = r.req.beats beatShift then
          streamFrom beatShift 0 (others ++ later) (fun c =>
            (Function.update s.clientWriteData r.client q c).items.map MemData.data ++ more c)
        else streamFrom beatShift (sentBeats + 1) (r :: others ++ later) (fun c =>
            (Function.update s.clientWriteData r.client q c).items.map MemData.data ++ more c) := by
    intro later more
    have hWords : Function.update
        (fun c => (s.clientWriteData c).items.map MemData.data ++ more c) r.client
        (q.items.map MemData.data ++ more r.client) = fun c =>
          (Function.update s.clientWriteData r.client q c).items.map MemData.data ++ more c := by
      funext c
      by_cases hc : c = r.client
      · subst hc
        simp
      · simp [hc]
    have hHead : (s.clientWriteData r.client).items.map MemData.data ++ more r.client =
        d.data :: (q.items.map MemData.data ++ more r.client) := by
      rw [show (s.clientWriteData r.client).items = d :: q.items from hData, List.map_cons,
        List.cons_append]
    rw [List.cons_append, streamFrom_next hSent hHead, hWords]
  have hMinus : 1 ≤ (s.burstLen beatShift (r.dreq beatShift)).toNat := by omega
  have hToNat : (s.burstLen beatShift (r.dreq beatShift) - 1).toNat =
      r.req.beats beatShift - sentBeats - 1 := by
    rw [BitVec.toNat_sub_of_le (by simpa [BitVec.le_def] using hMinus), hBurst]
    rfl
  by_cases hDone : sentBeats + 1 = r.req.beats beatShift
  · refine ⟨0, others, ?_⟩
    have hZero : s.burstLen beatShift (r.dreq beatShift) - 1 = 0 := by
      apply BitVec.eq_of_toNat_eq
      rw [hToNat]
      simp only [BitVec.ofNat_eq_ofNat, BitVec.toNat_ofNat, Nat.zero_mod]
      omega
    constructor
    · exact h.lreqs
    · exact h.reqs
    · intro r' hr'
      exact h.wellFormed r' (List.mem_cons_of_mem _ hr')
    · simp [hLast, hDone, hRest]
    · exact .inl ⟨beq_iff_eq.mpr hZero, rfl⟩
    · intro later more
      simp only [h.stream, hStep, hDone, if_true, hMem, ← hBeat, RRec.dreq, List.append_assoc,
        List.singleton_append]
  · refine ⟨sentBeats + 1, r :: others, ?_⟩
    constructor
    · exact h.lreqs
    · exact h.reqs
    · exact h.wellFormed
    · simp [hLast, hDone, h.dreqs]
    · refine .inr ⟨?_, r, others, rfl, by omega, by simp only [hToNat]; omega, ?_⟩
      · rw [beq_eq_false_iff_ne]
        intro hZero
        rw [hZero] at hToNat
        simp only [BitVec.ofNat_eq_ofNat, BitVec.toNat_ofNat, Nat.zero_mod] at hToNat
        omega
      · rw [Bool.eq_iff_iff, beq_iff_eq, decide_eq_true_eq, ← BitVec.toNat_inj, hToNat]
        simp only [BitVec.ofNat_eq_ofNat, BitVec.toNat_ofNat]
        omega
    · intro later more
      simp only [h.stream, hStep, hDone, if_false, hMem, ← hBeat, RRec.dreq, List.append_assoc,
        List.singleton_append]

/-- Every action keeps the place in the stream. Only `memdata` moves it. -/
theorem effect_dataInv {action : Action numClients addrWidth Data} {sentBeats : Nat}
    (h : DataInv beatShift trace s sentBeats pending)
    (hOk : WellFormedRequests beatShift trace s action) (hs : Effect s beatShift action s' events) :
    ∃ sentBeats' pending', DataInv beatShift (trace ++ events) s' sentBeats' pending' := by
  cases hs with
  | loaded client req q hq =>
    refine ⟨sentBeats, pending, { h with lreqs := ?_, stream := ?_ }⟩
    · intro l hl
      simp only [hq, List.mem_append, List.mem_singleton] at hl
      rcases hl with hl | rfl
      · exact h.lreqs l hl
      · exact hOk
    · simpa [handed, supplied, sent] using h.stream
  | refused | done | acked | reported =>
    exact ⟨sentBeats, pending, { h with stream := by simpa [handed, supplied, sent] using h.stream }⟩
  | renamed pa l rest tag tagGen q hl hTag hq =>
    refine ⟨sentBeats, pending, { h with lreqs := ?_, reqs := ?_, stream := ?_ }⟩
    · intro l' hl'
      exact h.lreqs l' (hl ▸ List.mem_cons_of_mem _ hl')
    · intro r hr
      simp only [hq, List.mem_append, List.mem_singleton] at hr
      rcases hr with hr | rfl
      · exact h.reqs r hr
      · exact h.lreqs l (by simp [hl])
    · simpa [handed, supplied, sent] using h.stream
  | lookedUp | tagRule =>
    exact ⟨sentBeats, pending, { h with stream := by simpa using h.stream }⟩
  | supplied client d q hq =>
    refine ⟨sentBeats, pending, { h with stream := ?_ }⟩
    intro later more
    have hMore := h.stream later (fun c => (if client = c then [d.data] else []) ++ more c)
    have hOld : ∀ c, supplied (trace ++ [.supplied client d]) c =
        supplied trace c ++ if client = c then [d.data] else [] := by
      intro c
      by_cases hc : client = c <;> simp [supplied, hc]
    have hNew : ∀ c, (Function.update s.clientWriteData client q c).items.map MemData.data =
        (s.clientWriteData c).items.map MemData.data ++ if client = c then [d.data] else [] := by
      intro c
      by_cases hc : client = c
      · subst hc
        simp [hq]
      · simp [hc, Ne.symm hc]
    simp only [hOld, hNew, List.append_assoc] at hMore ⊢
    simpa [handed, sent] using hMore
  | moved dreq rest d q mq hDreq hData hMem =>
    exact moved_dataInv h (.moved dreq rest d q mq hDreq hData hMem)
  | handed r q dq hq hDreq =>
    refine ⟨sentBeats, pending ++ [r], ?_⟩
    have hr := h.reqs r (by simp [hq])
    constructor
    · exact h.lreqs
    · intro r' hr'
      exact h.reqs r' (hq ▸ List.mem_cons_of_mem _ hr')
    · intro r' hr'
      simp only [List.mem_append, List.mem_singleton] at hr'
      rcases hr' with hr' | rfl
      · exact h.wellFormed r' hr'
      · exact hr
    · simp [hDreq, h.dreqs]
    · rcases h.atBeat with hFirst | ⟨hFirst, r', rest', rfl, hMid⟩
      · exact .inl hFirst
      · exact .inr ⟨hFirst, r', rest' ++ [r], rfl, hMid⟩
    · intro later more
      have hMore := h.stream (r :: later) more
      simpa [handed, supplied, sent] using hMore
  | sent d q hq =>
    refine ⟨sentBeats, pending, { h with stream := ?_ }⟩
    simpa [handed, supplied, sent, hq] using h.stream

/-- In every run whose clients send well-formed bursts, the beats that the
memory receives are a prefix of the stream of the requests it was handed: bursts
come in the order of the requests, each with exactly the next beats of its own
client, under the tag of its own request, and `last` set on the final beat only. -/
theorem data_sent_in_request_order
    (run : (machine numClients numTags tsz addrWidth Data beatShift numMMUs).Run
      (WellFormedRequests beatShift) s trace) :
    sent trace <+: stream beatShift (handed trace) (supplied trace) := by
  obtain ⟨sentBeats, pending, h⟩ := run.invariant
    (fun trace s => ∃ sentBeats pending, DataInv beatShift trace s sentBeats pending) (by
      rintro s ⟨tagMem, respMem, rfl⟩
      refine ⟨0, [], ?_⟩
      constructor <;> simp [powerUp, RequestPath.powerUp, AtBeat, handed, supplied, sent])
    (by
      rintro trace s action s' events ⟨sentBeats, pending, h⟩ hOk hs
      exact effect_dataInv h hOk (fire_effect hs))
  have hAll := h.stream [] (fun _ => [])
  simp only [List.append_nil] at hAll
  exact ⟨_, by rw [stream, hAll, List.append_assoc]⟩

/-- A burst of two four-byte words from the second of two clients. -/
theorem data_sent_in_request_order_two_words :
    ∃ d, (machine 2 2 1 12 Nat 2 1).exec (WellFormedRequests 2)
        [.tagRule .init, .tagRule .init, .loadClient 1 ⟨3, 64, 8, 5⟩, .checkMmuResp 64,
          .writeReqGet, .clientdata 1 ⟨70, 0, false⟩, .memdata, .clientdata 1 ⟨71, 0, false⟩,
          .writeDataGet, .memdata, .writeDataGet]
        (powerUp (fun _ => true) (fun _ => ⟨0, 0⟩), []) = some d ∧
      sent d.2 = [⟨70, 0, false⟩, ⟨71, 0, true⟩] ∧
      sent d.2 <+: stream 2 (handed d.2) (supplied d.2) := by
  obtain ⟨d, hd, hSent⟩ := Option.map_eq_some_iff.mp
    (show ((machine 2 2 1 12 Nat 2 1).exec (WellFormedRequests 2)
        [.tagRule .init, .tagRule .init, .loadClient 1 ⟨3, 64, 8, 5⟩, .checkMmuResp 64,
          .writeReqGet, .clientdata 1 ⟨70, 0, false⟩, .memdata, .clientdata 1 ⟨71, 0, false⟩,
          .writeDataGet, .memdata, .writeDataGet]
        (powerUp (fun _ => true) (fun _ => ⟨0, 0⟩), [])).map (fun d => sent d.2) =
      some [⟨70, 0, false⟩, ⟨71, 0, true⟩] by decide)
  exact ⟨d, hd, hSent, data_sent_in_request_order (Machine.exec_run ⟨_, _, rfl⟩ hd)⟩

end MemWriteInternal
end Connectal
