import Connectal.Memory.RequestPath

/-! The read server `mkMemReadInternal`. Physical read requests are taken by
the memory in order and answered in any order, under the renamed tags. The data
of each burst waits in a slot of the read buffer, last beat at address one, and
is drained to its client when the tag generator completes the tag. -/
namespace Connectal

open Rules

/-- State of the read server on top of the common request side. A slot of the
read buffer is addressed by tag and by the number of beats that remain. -/
structure MemReadInternal (numClients numTags tsz addrWidth beatShift : Nat) (Data : Type)
    extends RequestPath numClients numTags tsz addrWidth where
  dreqFifos : Bram (BitVec tsz) (DRec numClients) 3
  readBuffer : Bram (BitVec tsz × BitVec (8 - beatShift)) (MemData Data) 3
  readDataPipelineFifo : Fifo (MemData Data) 2
  burstReg : BitVec 8
  firstReg : Bool
  lastReg : Bool
  compReg0 : BitVec 8
  compReg1 : BitVec tsz
  compReg2 : Fin numClients
  compFifo0 : Fifo (Fin numClients) 2
  compFifo1 : Fifo (BitVec tsz) 2

namespace MemReadInternal

variable {numClients numTags tsz addrWidth beatShift : Nat} {Data : Type}

/-- Reset state, with unspecified contents of the three block memories. -/
def powerUp [NeZero numClients] (tagMem : BitVec tsz → Bool)
    (dreqMem : BitVec tsz → DRec numClients)
    (bufferMem : BitVec tsz × BitVec (8 - beatShift) → MemData Data) :
    MemReadInternal numClients numTags tsz addrWidth beatShift Data where
  toRequestPath := RequestPath.powerUp tagMem
  dreqFifos := Bram.powerUp dreqMem
  readBuffer := Bram.powerUp bufferMem
  readDataPipelineFifo := Fifo.empty
  burstReg := 0
  firstReg := true
  lastReg := false
  compReg0 := 0
  compReg1 := 0
  compReg2 := 0
  compFifo0 := Fifo.empty
  compFifo1 := Fifo.empty

variable (s : MemReadInternal numClients numTags tsz addrWidth beatShift Data)

/-- Look up the request of the oldest completed tag. -/
def completeBurst0 : Option (MemReadInternal numClients numTags tsz addrWidth beatShift Data) := do
  let (tag, tagGen) ← s.tagGen.complete
  let dreqFifos ← s.dreqFifos.read 1 tag
  let compFifo1 ← s.compFifo1.enq tag
  return { s with tagGen, dreqFifos, compFifo1 }

/-- Start to drain the oldest completed burst. -/
def completeBurst1a : Option (MemReadInternal numClients numTags tsz addrWidth beatShift Data) := do
  guard (s.compReg0 = 0)
  let (drq, dreqFifos) ← s.dreqFifos.get 1
  let cnt := drq.req.burstLen >>> beatShift
  let cli := drq.client
  let (tag, compFifo1) ← s.compFifo1.deq
  let compFifo0 ← s.compFifo0.enq cli
  let readBuffer ← s.readBuffer.read 1 (tag, cnt.setWidth (8 - beatShift))
  return { s with
    dreqFifos, compFifo1, compFifo0, readBuffer
    compReg0 := cnt - 1
    compReg1 := tag
    compReg2 := cli }

/-- Continue to drain a burst. -/
def completeBurst1b : Option (MemReadInternal numClients numTags tsz addrWidth beatShift Data) := do
  guard (0 < s.compReg0)
  let compFifo0 ← s.compFifo0.enq s.compReg2
  let readBuffer ← s.readBuffer.read 1 (s.compReg1, s.compReg0.setWidth (8 - beatShift))
  return { s with compFifo0, readBuffer, compReg0 := s.compReg0 - 1 }

/-- Deliver one beat to its client. -/
def completeBurst2 : Option ((Fin numClients × MemData Data) ×
    MemReadInternal numClients numTags tsz addrWidth beatShift Data) := do
  let (client, compFifo0) ← s.compFifo0.deq
  let (data, readBuffer) ← s.readBuffer.get 1
  return ((client, data), { s with compFifo0, readBuffer })

def loadClient (numMMUs : Nat) (client : Fin numClients) (req : MemRequest) :
    Option (MemReadInternal numClients numTags tsz addrWidth beatShift Data ×
      Option DmaErrorType) := do
  let (path, refused) ← s.toRequestPath.loadClient .mmuOutOfRangeR .sglIdOutOfRangeR numMMUs client req
  return ({ s with toRequestPath := path }, refused)

def checkMmuResp (physAddr : BitVec addrWidth) : Option (RRec numClients addrWidth ×
    MemReadInternal numClients numTags tsz addrWidth beatShift Data) := do
  let (r, path) ← s.toRequestPath.checkMmuResp physAddr
  return (r, { s with toRequestPath := path })

/-- The value of the beat counter that the next beat uses. -/
def burstLen (drq : DRec numClients) : BitVec 8 :=
  if s.firstReg then drq.req.burstLen >>> beatShift else s.burstReg

/-- Whether the next beat of the burst is its last one. -/
def last (drq : DRec numClients) : Bool := if s.firstReg then drq.last else s.lastReg

/-- With its last beat a burst gives its tag back. -/
def returnLast (last : Bool) (tag : BitVec tsz) : Option (TagGen numTags tsz) :=
  if last then s.tagGen.returnTag tag else some s.tagGen

/-- Store one beat of the memory's answer in the slot of its tag. -/
def readData : Option (MemReadInternal numClients numTags tsz addrWidth beatShift Data) := do
  let (response, readDataPipelineFifo) ← s.readDataPipelineFifo.deq
  let (drq, dreqFifos) ← s.dreqFifos.get 0
  let burstLen := s.burstLen drq
  let last := s.last drq
  let tt := response.tag.setWidth tsz
  let readBuffer ← s.readBuffer.write 0 (tt, burstLen.setWidth (8 - beatShift))
    ⟨response.data, drq.req.tag, last⟩
  let tagGen ← s.returnLast last tt
  return { s with
    readDataPipelineFifo, dreqFifos, readBuffer, tagGen
    burstReg := burstLen - 1
    firstReg := burstLen - 1 == 0
    lastReg := burstLen - 1 == 1 }

/-- The memory takes the next physical read request. -/
def readReqGet : Option (RRec numClients addrWidth ×
    MemReadInternal numClients numTags tsz addrWidth beatShift Data) := do
  let (r, reqFifo) ← s.reqFifo.deq
  let dreqFifos ← s.dreqFifos.write 1 (r.renameTag.setWidth tsz) (r.dreq beatShift)
  return (r, { s with reqFifo, dreqFifos })

/-- The memory answers with one beat. -/
def readDataPut (response : MemData Data) :
    Option (MemReadInternal numClients numTags tsz addrWidth beatShift Data) := do
  let readDataPipelineFifo ← s.readDataPipelineFifo.enq response
  let dreqFifos ← s.dreqFifos.read 0 (response.tag.setWidth tsz)
  return { s with readDataPipelineFifo, dreqFifos }

def dmaError : Option (DmaError ×
    MemReadInternal numClients numTags tsz addrWidth beatShift Data) := do
  let (error, path) ← s.toRequestPath.dmaError
  return (error, { s with toRequestPath := path })

def tagRule (r : TagGen.Rule) :
    Option (MemReadInternal numClients numTags tsz addrWidth beatShift Data) := do
  let path ← s.toRequestPath.tagRule r
  return { s with toRequestPath := path }

/-- Everything that can happen at the read server. -/
inductive Action (numClients addrWidth : Nat) (Data : Type) where
  | loadClient (client : Fin numClients) (req : MemRequest)
  | checkMmuResp (physAddr : BitVec addrWidth)
  | completeBurst0
  | completeBurst1a
  | completeBurst1b
  | completeBurst2
  | readData
  | readReqGet
  | readDataPut (response : MemData Data)
  | dmaError
  | tagRule (r : TagGen.Rule)
  deriving DecidableEq, Repr

/-- What the clients, the memory and the software see. -/
inductive Event (numClients addrWidth : Nat) (Data : Type) where
  | loaded (client : Fin numClients) (req : MemRequest)
  | refused (client : Fin numClients) (req : MemRequest) (error : DmaErrorType)
  | renamed (r : RRec numClients addrWidth)
  | handed (r : RRec numClients addrWidth)
  | beat (d : MemData Data)
  | delivered (client : Fin numClients) (d : MemData Data)
  | reported (error : DmaError)
  deriving DecidableEq, Repr

def fire (numMMUs : Nat) : Action numClients addrWidth Data →
    MemReadInternal numClients numTags tsz addrWidth beatShift Data →
    Option (MemReadInternal numClients numTags tsz addrWidth beatShift Data ×
      List (Event numClients addrWidth Data))
  | .loadClient client req, s => (s.loadClient numMMUs client req).map fun r =>
    (r.1, [match r.2 with | none => .loaded client req | some e => .refused client req e])
  | .checkMmuResp physAddr, s => (s.checkMmuResp physAddr).map fun r => (r.2, [.renamed r.1])
  | .completeBurst0, s => s.completeBurst0.map fun s' => (s', [])
  | .completeBurst1a, s => s.completeBurst1a.map fun s' => (s', [])
  | .completeBurst1b, s => s.completeBurst1b.map fun s' => (s', [])
  | .completeBurst2, s => s.completeBurst2.map fun r => (r.2, [.delivered r.1.1 r.1.2])
  | .readData, s => s.readData.map fun s' => (s', [])
  | .readReqGet, s => s.readReqGet.map fun r => (r.2, [.handed r.1])
  | .readDataPut response, s => (s.readDataPut response).map fun s' => (s', [.beat response])
  | .dmaError, s => s.dmaError.map fun r => (r.2, [.reported r.1])
  | .tagRule r, s => (s.tagRule r).map fun s' => (s', [])

/-- The read server among clients, memory and translation units that do
whatever they like. -/
def machine (numClients numTags tsz addrWidth beatShift : Nat) [NeZero numClients] (Data : Type)
    (numMMUs : Nat) :
    Machine (MemReadInternal numClients numTags tsz addrWidth beatShift Data)
      (Action numClients addrWidth Data) (Event numClients addrWidth Data) where
  init s := ∃ tagMem dreqMem bufferMem, s = powerUp tagMem dreqMem bufferMem
  fire := fire numMMUs

/-- Everything an action can do, in terms of the contents of the queues. -/
inductive Effect : Action numClients addrWidth Data →
    MemReadInternal numClients numTags tsz addrWidth beatShift Data →
    List (Event numClients addrWidth Data) → Prop
  | loaded (client : Fin numClients) (req : MemRequest) (q : Fifo (LRec numClients) 9)
      (hq : q.items = s.lreqFifo.items ++ [⟨req, client⟩]) :
      Effect (.loadClient client req) { s with lreqFifo := q } [.loaded client req]
  | refused (client : Fin numClients) (req : MemRequest) (e : DmaErrorType) (q : Fifo DmaError 2) :
      Effect (.loadClient client req) { s with dmaErrorFifo := q } [.refused client req e]
  | renamed (pa : BitVec addrWidth) (l : LRec numClients) (rest : Fifo (LRec numClients) 9)
      (tag : BitVec tsz) (tagGen : TagGen numTags tsz) (q : Fifo (RRec numClients addrWidth) 2)
      (hl : s.lreqFifo.items = l :: rest.items) (hTag : s.tagGen.getTag = some (tag, tagGen))
      (hq : q.items = s.reqFifo.items ++ [⟨l.req, pa, tag.setWidth 6, l.client⟩]) :
      Effect (.checkMmuResp pa) { s with lreqFifo := rest, reqFifo := q, tagGen }
        [.renamed ⟨l.req, pa, tag.setWidth 6, l.client⟩]
  | lookedUp (tag : BitVec tsz) (tagGen : TagGen numTags tsz) (q : Fifo (DRec numClients) 3)
      (cq : Fifo (BitVec tsz) 2) (hTag : s.tagGen.complete = some (tag, tagGen))
      (hq : q.items = (s.dreqFifos.out 1).items ++ [s.dreqFifos.mem tag])
      (hcq : cq.items = s.compFifo1.items ++ [tag]) :
      Effect .completeBurst0
        { s with
          tagGen
          dreqFifos := { s.dreqFifos with out := Function.update s.dreqFifos.out 1 q }
          compFifo1 := cq } []
  | drainFirst (drq : DRec numClients) (q : Fifo (DRec numClients) 3) (tag : BitVec tsz)
      (tq : Fifo (BitVec tsz) 2) (cq : Fifo (Fin numClients) 2) (bq : Fifo (MemData Data) 3)
      (hIdle : s.compReg0 = 0) (hq : (s.dreqFifos.out 1).items = drq :: q.items)
      (htq : s.compFifo1.items = tag :: tq.items)
      (hcq : cq.items = s.compFifo0.items ++ [drq.client])
      (hbq : bq.items = (s.readBuffer.out 1).items ++
        [s.readBuffer.mem (tag, (drq.req.burstLen >>> beatShift).setWidth (8 - beatShift))]) :
      Effect .completeBurst1a
        { s with
          dreqFifos := { s.dreqFifos with out := Function.update s.dreqFifos.out 1 q }
          compFifo1 := tq
          compFifo0 := cq
          readBuffer := { s.readBuffer with out := Function.update s.readBuffer.out 1 bq }
          compReg0 := (drq.req.burstLen >>> beatShift) - 1
          compReg1 := tag
          compReg2 := drq.client } []
  | drainNext (cq : Fifo (Fin numClients) 2) (bq : Fifo (MemData Data) 3) (hBusy : 0 < s.compReg0)
      (hcq : cq.items = s.compFifo0.items ++ [s.compReg2])
      (hbq : bq.items = (s.readBuffer.out 1).items ++
        [s.readBuffer.mem (s.compReg1, s.compReg0.setWidth (8 - beatShift))]) :
      Effect .completeBurst1b
        { s with
          compFifo0 := cq
          readBuffer := { s.readBuffer with out := Function.update s.readBuffer.out 1 bq }
          compReg0 := s.compReg0 - 1 } []
  | delivered (client : Fin numClients) (d : MemData Data) (cq : Fifo (Fin numClients) 2)
      (bq : Fifo (MemData Data) 3) (hcq : s.compFifo0.items = client :: cq.items)
      (hbq : (s.readBuffer.out 1).items = d :: bq.items) :
      Effect .completeBurst2
        { s with
          compFifo0 := cq
          readBuffer := { s.readBuffer with out := Function.update s.readBuffer.out 1 bq } }
        [.delivered client d]
  | stored (response : MemData Data) (pq : Fifo (MemData Data) 2) (drq : DRec numClients)
      (q : Fifo (DRec numClients) 3) (tagGen : TagGen numTags tsz)
      (hpq : s.readDataPipelineFifo.items = response :: pq.items)
      (hq : (s.dreqFifos.out 0).items = drq :: q.items)
      (hTag : s.returnLast (s.last drq) (response.tag.setWidth tsz) = some tagGen) :
      Effect .readData
        { s with
          readDataPipelineFifo := pq
          dreqFifos := { s.dreqFifos with out := Function.update s.dreqFifos.out 0 q }
          readBuffer := { s.readBuffer with
            mem := Function.update s.readBuffer.mem
              (response.tag.setWidth tsz, (s.burstLen drq).setWidth (8 - beatShift))
              ⟨response.data, drq.req.tag, s.last drq⟩ }
          tagGen
          burstReg := s.burstLen drq - 1
          firstReg := s.burstLen drq - 1 == 0
          lastReg := s.burstLen drq - 1 == 1 } []
  | handed (r : RRec numClients addrWidth) (q : Fifo (RRec numClients addrWidth) 2)
      (hq : s.reqFifo.items = r :: q.items) :
      Effect .readReqGet
        { s with
          reqFifo := q
          dreqFifos := { s.dreqFifos with
            mem := Function.update s.dreqFifos.mem (r.renameTag.setWidth tsz) (r.dreq beatShift) } }
        [.handed r]
  | beat (response : MemData Data) (pq : Fifo (MemData Data) 2) (q : Fifo (DRec numClients) 3)
      (hpq : pq.items = s.readDataPipelineFifo.items ++ [response])
      (hq : q.items = (s.dreqFifos.out 0).items ++ [s.dreqFifos.mem (response.tag.setWidth tsz)]) :
      Effect (.readDataPut response)
        { s with
          readDataPipelineFifo := pq
          dreqFifos := { s.dreqFifos with out := Function.update s.dreqFifos.out 0 q } }
        [.beat response]
  | reported (e : DmaError) (q : Fifo DmaError 2) :
      Effect .dmaError { s with dmaErrorFifo := q } [.reported e]
  | tagRule (r : TagGen.Rule) (tagGen : TagGen numTags tsz) (events : List (TagGen.Event tsz))
      (hTag : TagGen.runRule r s.tagGen = some (tagGen, events)) :
      Effect (.tagRule r) { s with tagGen } []

theorem fire_effect {numMMUs : Nat} {action : Action numClients addrWidth Data}
    {s s' : MemReadInternal numClients numTags tsz addrWidth beatShift Data}
    {events : List (Event numClients addrWidth Data)}
    (h : fire numMMUs action s = some (s', events)) : Effect s action s' events := by
  cases action with
  | loadClient client req =>
    simp only [fire, loadClient, firing] at h
    obtain ⟨_, _, ⟨path, refused, hPath, rfl, rfl⟩, rfl, rfl⟩ := h
    rcases RequestPath.loadClient_cases hPath with ⟨e, q, rfl, rfl⟩ | ⟨rfl, q, hq, rfl⟩
    · exact .refused client req e q
    · exact .loaded client req q hq
  | checkMmuResp pa =>
    simp only [fire, checkMmuResp, firing] at h
    obtain ⟨_, _, ⟨_, path, hPath, rfl, rfl⟩, rfl, rfl⟩ := h
    obtain ⟨l, rest, tag, tagGen, q, hl, hTag, hq, rfl, rfl⟩ :=
      RequestPath.checkMmuResp_cases hPath
    exact .renamed pa l rest tag tagGen q hl hTag hq
  | completeBurst0 =>
    simp only [fire, completeBurst0, firing, Bram.read_eq_some] at h
    obtain ⟨_, ⟨tag, tagGen, hTag, _, ⟨-, q, hq, rfl⟩, cq, ⟨-, hcq⟩, rfl⟩, rfl, rfl⟩ := h
    exact .lookedUp tag tagGen q cq hTag hq hcq
  | completeBurst1a =>
    simp only [fire, completeBurst1a, firing, Bram.get_eq_some, Bram.read_eq_some] at h
    obtain ⟨_, ⟨hIdle, drq, _, ⟨q, hq, rfl⟩, tag, tq, htq, cq, ⟨-, hcq⟩, _,
      ⟨-, bq, hbq, rfl⟩, rfl⟩, rfl, rfl⟩ := h
    exact .drainFirst drq q tag tq cq bq hIdle hq htq hcq hbq
  | completeBurst1b =>
    simp only [fire, completeBurst1b, firing, Bram.read_eq_some] at h
    obtain ⟨_, ⟨hBusy, cq, ⟨-, hcq⟩, _, ⟨-, bq, hbq, rfl⟩, rfl⟩, rfl, rfl⟩ := h
    exact .drainNext cq bq hBusy hcq hbq
  | completeBurst2 =>
    simp only [fire, completeBurst2, firing, Bram.get_eq_some] at h
    obtain ⟨_, _, _, ⟨client, cq, hcq, d, _, ⟨bq, hbq, rfl⟩, ⟨rfl, rfl⟩, rfl⟩, rfl, rfl⟩ := h
    exact .delivered client d cq bq hcq hbq
  | readData =>
    simp only [fire, readData, firing, Bram.get_eq_some, Bram.write_eq_some] at h
    obtain ⟨_, ⟨response, pq, hpq, drq, _, ⟨q, hq, rfl⟩, _, ⟨-, rfl⟩, tagGen, hTag, rfl⟩,
      rfl, rfl⟩ := h
    exact .stored response pq drq q tagGen hpq hq hTag
  | readReqGet =>
    simp only [fire, readReqGet, firing, Bram.write_eq_some] at h
    obtain ⟨_, _, ⟨r, q, hq, _, ⟨-, rfl⟩, rfl, rfl⟩, rfl, rfl⟩ := h
    exact .handed r q hq
  | readDataPut response =>
    simp only [fire, readDataPut, firing, Bram.read_eq_some] at h
    obtain ⟨_, ⟨pq, ⟨-, hpq⟩, _, ⟨-, q, hq, rfl⟩, rfl⟩, rfl, rfl⟩ := h
    exact .beat response pq q hpq hq
  | dmaError =>
    simp only [fire, dmaError, firing] at h
    obtain ⟨_, _, ⟨e, path, hPath, rfl, rfl⟩, rfl, rfl⟩ := h
    obtain ⟨q, rfl⟩ := RequestPath.dmaError_cases hPath
    exact .reported e q
  | tagRule r =>
    simp only [fire, tagRule, firing] at h
    obtain ⟨_, ⟨path, hPath, rfl⟩, rfl, rfl⟩ := h
    obtain ⟨tagGen, events, hTag, rfl⟩ := RequestPath.tagRule_cases hPath
    exact .tagRule r tagGen events hTag

end MemReadInternal
end Connectal
