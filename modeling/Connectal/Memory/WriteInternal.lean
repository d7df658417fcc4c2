import Connectal.Memory.RequestPath

/-! The write server `mkMemWriteInternal`. Physical write requests are taken by
the memory in order; the data of each burst is fetched from the client that
asked for it, and the memory's acknowledgement is sent back to that client
under the tag that the client had chosen. -/
namespace Connectal

open Rules

/-- State of the write server on top of the common request side. -/
structure MemWriteInternal (numClients numTags tsz addrWidth : Nat) (Data : Type)
    extends RequestPath numClients numTags tsz addrWidth where
  dreqFifo : Fifo (DRec numClients) numTags
  respFifos : Bram (BitVec tsz) (RResp numClients) 3
  burstReg : BitVec 8
  firstReg : Bool
  lastReg : Bool
  memDataFifo : Fifo (MemData Data) 2
  clientWriteData : Fin numClients → Fifo (MemData Data) 2

namespace MemWriteInternal

variable {numClients numTags tsz addrWidth : Nat} {Data : Type}

/-- Reset state, with unspecified contents of the two block memories. -/
def powerUp (tagMem : BitVec tsz → Bool) (respMem : BitVec tsz → RResp numClients) :
    MemWriteInternal numClients numTags tsz addrWidth Data where
  toRequestPath := RequestPath.powerUp tagMem
  dreqFifo := Fifo.empty
  respFifos := Bram.powerUp respMem
  burstReg := 0
  firstReg := true
  lastReg := false
  memDataFifo := Fifo.empty
  clientWriteData := fun _ => Fifo.empty

variable (s : MemWriteInternal numClients numTags tsz addrWidth Data)

def loadClient (numMMUs : Nat) (client : Fin numClients) (req : MemRequest) :
    Option (MemWriteInternal numClients numTags tsz addrWidth Data × Option DmaErrorType) := do
  let (path, refused) ← s.toRequestPath.loadClient .mmuOutOfRangeW .sglIdOutOfRangeW numMMUs client req
  return ({ s with toRequestPath := path }, refused)

def checkMmuResp (physAddr : BitVec addrWidth) :
    Option (RRec numClients addrWidth × MemWriteInternal numClients numTags tsz addrWidth Data) := do
  let (r, path) ← s.toRequestPath.checkMmuResp physAddr
  return (r, { s with toRequestPath := path })

/-- Look up who has to be told about the oldest completed tag. -/
def writeDoneComp0 : Option (MemWriteInternal numClients numTags tsz addrWidth Data) := do
  let (tag, tagGen) ← s.tagGen.complete
  let respFifos ← s.respFifos.read 1 tag
  return { s with tagGen, respFifos }

/-- Tell a client that one of its bursts is done. -/
def writeDoneComp1 :
    Option (RResp numClients × MemWriteInternal numClients numTags tsz addrWidth Data) := do
  let (rv, respFifos) ← s.respFifos.get 1
  return (rv, { s with respFifos })

/-- Fetch one beat from a client into its local queue. -/
def clientdata (client : Fin numClients) (d : MemData Data) :
    Option (MemWriteInternal numClients numTags tsz addrWidth Data) := do
  let q ← (s.clientWriteData client).enq d
  return { s with clientWriteData := Function.update s.clientWriteData client q }

/-- The value of the beat counter that the next beat uses. -/
def burstLen (beatShift : Nat) (dreq : DRec numClients) : BitVec 8 :=
  if s.firstReg then dreq.req.burstLen >>> beatShift else s.burstReg

/-- Whether the next beat of the burst is its last one. -/
def last (dreq : DRec numClients) : Bool := if s.firstReg then dreq.last else s.lastReg

/-- The first beat of a burst records whom to tell when the burst is done. -/
def recordResp (dreq : DRec numClients) : Option (Bram (BitVec tsz) (RResp numClients) 3) :=
  if s.firstReg then
    s.respFifos.write 0 (dreq.renameTag.setWidth tsz) ⟨dreq.req.tag, dreq.client⟩
  else some s.respFifos

/-- Move one beat of the oldest burst from its client to the memory. -/
def memdata (beatShift : Nat) : Option (MemWriteInternal numClients numTags tsz addrWidth Data) := do
  let (dreq, rest) ← s.dreqFifo.deq
  let (tagdata, q) ← (s.clientWriteData dreq.client).deq
  let burstLen := s.burstLen beatShift dreq
  let last := s.last dreq
  let respFifos ← s.recordResp dreq
  let memDataFifo ← s.memDataFifo.enq ⟨tagdata.data, dreq.renameTag, last⟩
  return { s with
    clientWriteData := Function.update s.clientWriteData dreq.client q
    respFifos
    burstReg := burstLen - 1
    firstReg := burstLen - 1 == 0
    lastReg := burstLen - 1 == 1
    dreqFifo := if last then rest else s.dreqFifo
    memDataFifo }

/-- The memory takes the next physical write request. -/
def writeReqGet (beatShift : Nat) :
    Option (RRec numClients addrWidth × MemWriteInternal numClients numTags tsz addrWidth Data) := do
  let (r, reqFifo) ← s.reqFifo.deq
  let dreqFifo ← s.dreqFifo.enq (r.dreq beatShift)
  return (r, { s with reqFifo, dreqFifo })

/-- The memory takes the next data beat. -/
def writeDataGet : Option (MemData Data × MemWriteInternal numClients numTags tsz addrWidth Data) := do
  let (d, memDataFifo) ← s.memDataFifo.deq
  return (d, { s with memDataFifo })

/-- The memory acknowledges a burst. -/
def writeDonePut (resp : BitVec 6) :
    Option (MemWriteInternal numClients numTags tsz addrWidth Data) := do
  let tagGen ← s.tagGen.returnTag (resp.setWidth tsz)
  return { s with tagGen }

def dmaError : Option (DmaError × MemWriteInternal numClients numTags tsz addrWidth Data) := do
  let (error, path) ← s.toRequestPath.dmaError
  return (error, { s with toRequestPath := path })

def tagRule (r : TagGen.Rule) : Option (MemWriteInternal numClients numTags tsz addrWidth Data) := do
  let path ← s.toRequestPath.tagRule r
  return { s with toRequestPath := path }

/-- Everything that can happen at the write server. The clients and the
translation units choose the arguments of their actions. -/
inductive Action (numClients addrWidth : Nat) (Data : Type) where
  | loadClient (client : Fin numClients) (req : MemRequest)
  | checkMmuResp (physAddr : BitVec addrWidth)
  | writeDoneComp0
  | writeDoneComp1
  | clientdata (client : Fin numClients) (d : MemData Data)
  | memdata
  | writeReqGet
  | writeDataGet
  | writeDonePut (resp : BitVec 6)
  | dmaError
  | tagRule (r : TagGen.Rule)
  deriving DecidableEq, Repr

/-- What the clients, the memory and the software see. -/
inductive Event (numClients addrWidth : Nat) (Data : Type) where
  | loaded (client : Fin numClients) (req : MemRequest)
  | refused (client : Fin numClients) (req : MemRequest) (error : DmaErrorType)
  | renamed (r : RRec numClients addrWidth)
  | handed (r : RRec numClients addrWidth)
  | supplied (client : Fin numClients) (d : MemData Data)
  | sent (d : MemData Data)
  | acked (tag : BitVec 6)
  | done (client : Fin numClients) (tag : BitVec 6)
  | reported (error : DmaError)
  deriving DecidableEq, Repr

def fire (beatShift numMMUs : Nat) : Action numClients addrWidth Data →
    MemWriteInternal numClients numTags tsz addrWidth Data →
    Option (MemWriteInternal numClients numTags tsz addrWidth Data ×
      List (Event numClients addrWidth Data))
  | .loadClient client req, s => (s.loadClient numMMUs client req).map fun r =>
    (r.1, [match r.2 with | none => .loaded client req | some e => .refused client req e])
  | .checkMmuResp physAddr, s => (s.checkMmuResp physAddr).map fun r => (r.2, [.renamed r.1])
  | .writeDoneComp0, s => s.writeDoneComp0.map fun s' => (s', [])
  | .writeDoneComp1, s => s.writeDoneComp1.map fun r => (r.2, [.done r.1.client r.1.origTag])
  | .clientdata client d, s => (s.clientdata client d).map fun s' => (s', [.supplied client d])
  | .memdata, s => (s.memdata beatShift).map fun s' => (s', [])
  | .writeReqGet, s => (s.writeReqGet beatShift).map fun r => (r.2, [.handed r.1])
  | .writeDataGet, s => s.writeDataGet.map fun r => (r.2, [.sent r.1])
  | .writeDonePut resp, s => (s.writeDonePut resp).map fun s' => (s', [.acked resp])
  | .dmaError, s => s.dmaError.map fun r => (r.2, [.reported r.1])
  | .tagRule r, s => (s.tagRule r).map fun s' => (s', [])

/-- The write server with `2 ^ beatShift` bytes per bus word and `numMMUs`
translation units, among clients, memory and translation units that do
whatever they like. -/
def machine (numClients numTags tsz addrWidth : Nat) (Data : Type) (beatShift numMMUs : Nat) :
    Machine (MemWriteInternal numClients numTags tsz addrWidth Data)
      (Action numClients addrWidth Data) (Event numClients addrWidth Data) where
  init s := ∃ tagMem respMem, s = powerUp tagMem respMem
  fire := fire beatShift numMMUs

/-- The completion table after the next beat of the burst. -/
def respMem (dreq : DRec numClients) : BitVec tsz → RResp numClients :=
  if s.firstReg then
    Function.update s.respFifos.mem (dreq.renameTag.setWidth tsz) ⟨dreq.req.tag, dreq.client⟩
  else s.respFifos.mem

/-- Everything an action can do, in terms of the contents of the queues. -/
inductive Effect (beatShift : Nat) : Action numClients addrWidth Data →
    MemWriteInternal numClients numTags tsz addrWidth Data →
    List (Event numClients addrWidth Data) → Prop
  | loaded (client : Fin numClients) (req : MemRequest) (q : Fifo (LRec numClients) 9)
      (hq : q.items = s.lreqFifo.items ++ [⟨req, client⟩]) :
      Effect beatShift (.loadClient client req) { s with lreqFifo := q } [.loaded client req]
  | refused (client : Fin numClients) (req : MemRequest) (e : DmaErrorType) (q : Fifo DmaError 2) :
      Effect beatShift (.loadClient client req) { s with dmaErrorFifo := q } [.refused client req e]
  | renamed (pa : BitVec addrWidth) (l : LRec numClients) (rest : Fifo (LRec numClients) 9)
      (tag : BitVec tsz) (tagGen : TagGen numTags tsz) (q : Fifo (RRec numClients addrWidth) 2)
      (hl : s.lreqFifo.items = l :: rest.items) (hTag : s.tagGen.getTag = some (tag, tagGen))
      (hq : q.items = s.reqFifo.items ++ [⟨l.req, pa, tag.setWidth 6, l.client⟩]) :
      Effect beatShift (.checkMmuResp pa) { s with lreqFifo := rest, reqFifo := q, tagGen }
        [.renamed ⟨l.req, pa, tag.setWidth 6, l.client⟩]
  | lookedUp (tag : BitVec tsz) (tagGen : TagGen numTags tsz) (q : Fifo (RResp numClients) 3)
      (hTag : s.tagGen.complete = some (tag, tagGen))
      (hq : q.items = (s.respFifos.out 1).items ++ [s.respFifos.mem tag]) :
      Effect beatShift .writeDoneComp0
        { s with tagGen, respFifos := { s.respFifos with out := Function.update s.respFifos.out 1 q } } []
  | done (rv : RResp numClients) (q : Fifo (RResp numClients) 3)
      (hq : (s.respFifos.out 1).items = rv :: q.items) :
      Effect beatShift .writeDoneComp1
        { s with respFifos := { s.respFifos with out := Function.update s.respFifos.out 1 q } }
        [.done rv.client rv.origTag]
  | supplied (client : Fin numClients) (d : MemData Data) (q : Fifo (MemData Data) 2)
      (hq : q.items = (s.clientWriteData client).items ++ [d]) :
      Effect beatShift (.clientdata client d)
        { s with clientWriteData := Function.update s.clientWriteData client q }
        [.supplied client d]
  | moved (dreq : DRec numClients) (rest : Fifo (DRec numClients) numTags) (d : MemData Data)
      (q mq : Fifo (MemData Data) 2) (hDreq : s.dreqFifo.items = dreq :: rest.items)
      (hData : (s.clientWriteData dreq.client).items = d :: q.items)
      (hMem : mq.items = s.memDataFifo.items ++ [⟨d.data, dreq.renameTag, s.last dreq⟩]) :
      Effect beatShift .memdata
        { s with
          clientWriteData := Function.update s.clientWriteData dreq.client q
          respFifos := { s.respFifos with mem := s.respMem dreq }
          burstReg := s.burstLen beatShift dreq - 1
          firstReg := s.burstLen beatShift dreq - 1 == 0
          lastReg := s.burstLen beatShift dreq - 1 == 1
          dreqFifo := if s.last dreq then rest else s.dreqFifo
          memDataFifo := mq } []
  | handed (r : RRec numClients addrWidth) (q : Fifo (RRec numClients addrWidth) 2)
      (dq : Fifo (DRec numClients) numTags) (hq : s.reqFifo.items = r :: q.items)
      (hDreq : dq.items = s.dreqFifo.items ++ [r.dreq beatShift]) :
      Effect beatShift .writeReqGet { s with reqFifo := q, dreqFifo := dq } [.handed r]
  | sent (d : MemData Data) (q : Fifo (MemData Data) 2) (hq : s.memDataFifo.items = d :: q.items) :
      Effect beatShift .writeDataGet { s with memDataFifo := q } [.sent d]
  | acked (resp : BitVec 6) (tagGen : TagGen numTags tsz)
      (hTag : s.tagGen.returnTag (resp.setWidth tsz) = some tagGen) :
      Effect beatShift (.writeDonePut resp) { s with tagGen } [.acked resp]
  | reported (e : DmaError) (q : Fifo DmaError 2) :
      Effect beatShift .dmaError { s with dmaErrorFifo := q } [.reported e]
  | tagRule (r : TagGen.Rule) (tagGen : TagGen numTags tsz) (events : List (TagGen.Event tsz))
      (hTag : TagGen.runRule r s.tagGen = some (tagGen, events)) :
      Effect beatShift (.tagRule r) { s with tagGen } []

theorem fire_effect {beatShift numMMUs : Nat} {action : Action numClients addrWidth Data}
    {s s' : MemWriteInternal numClients numTags tsz addrWidth Data}
    {events : List (Event numClients addrWidth Data)}
    (h : fire beatShift numMMUs action s = some (s', events)) :
    Effect s beatShift action s' events := by
  cases action with
  | loadClient client req =>
    simp only [fire, loadClient, firing] at h
    obtain ⟨_, _, ⟨path, refused, hPath, rfl, rfl⟩, rfl, rfl⟩ := h
    rcases RequestPath.loadClient_cases hPath with ⟨e, q, rfl, rfl⟩ | ⟨rfl, q, hq, rfl⟩
    · exact .refused client req e q
    · exact .loaded client req q hq
  | checkMmuResp pa =>
    simp only [fire, checkMmuResp, firing] at h
    obtain ⟨_, _, ⟨_, path, hPath, rfl, rfl⟩, rfl, rfl⟩ := h
    obtain ⟨l, rest, tag, tagGen, q, hl, hTag, hq, rfl, rfl⟩ :=
      RequestPath.checkMmuResp_cases hPath
    exact .renamed pa l rest tag tagGen q hl hTag hq
  | writeDoneComp0 =>
    simp only [fire, writeDoneComp0, firing, Bram.read_eq_some] at h
    obtain ⟨_, ⟨tag, tagGen, hTag, _, ⟨-, q, hq, rfl⟩, rfl⟩, rfl, rfl⟩ := h
    exact .lookedUp tag tagGen q hTag hq
  | writeDoneComp1 =>
    simp only [fire, writeDoneComp1, firing, Bram.get_eq_some] at h
    obtain ⟨_, _, ⟨rv, _, ⟨q, hq, rfl⟩, rfl, rfl⟩, rfl, rfl⟩ := h
    exact .done rv q hq
  | clientdata client d =>
    simp only [fire, clientdata, firing] at h
    obtain ⟨_, ⟨q, hq, rfl⟩, rfl, rfl⟩ := h
    exact .supplied client d q hq.2
  | memdata =>
    simp only [fire, memdata, firing] at h
    obtain ⟨_, ⟨dreq, rest, hDreq, d, q, hData, resp, hResp, mq, hMem, rfl⟩, rfl, rfl⟩ := h
    have hTable : resp = { s.respFifos with mem := s.respMem dreq } := by
      unfold respMem
      unfold recordResp at hResp
      split at hResp
      · next hFirst =>
        simp only [Bram.write_eq_some] at hResp
        rw [if_pos hFirst, hResp.2]
      · next hFirst =>
        rw [if_neg hFirst]
        exact (Option.some.inj hResp).symm
    subst hTable
    exact .moved dreq rest d q mq hDreq hData hMem.2
  | writeReqGet =>
    simp only [fire, writeReqGet, firing] at h
    obtain ⟨_, _, ⟨r, q, hq, dq, hDreq, rfl, rfl⟩, rfl, rfl⟩ := h
    exact .handed r q dq hq hDreq.2
  | writeDataGet =>
    simp only [fire, writeDataGet, firing] at h
    obtain ⟨_, _, ⟨d, q, hq, rfl, rfl⟩, rfl, rfl⟩ := h
    exact .sent d q hq
  | writeDonePut resp =>
    simp only [fire, writeDonePut, firing] at h
    obtain ⟨_, ⟨tagGen, hTag, rfl⟩, rfl, rfl⟩ := h
    exact .acked resp tagGen hTag
  | dmaError =>
    simp only [fire, dmaError, firing] at h
    obtain ⟨_, _, ⟨e, path, hPath, rfl, rfl⟩, rfl, rfl⟩ := h
    obtain ⟨q, rfl⟩ := RequestPath.dmaError_cases hPath
    exact .reported e q
  | tagRule r =>
    simp only [fire, tagRule, firing] at h
    obtain ⟨_, ⟨path, hPath, rfl⟩, rfl, rfl⟩ := h
    obtain ⟨tagGen, events, hTag, rfl⟩ := RequestPath.tagRule_cases hPath
    exact .tagRule r tagGen events hTag

end MemWriteInternal
end Connectal
