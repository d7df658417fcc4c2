import Connectal.Memory.Types
import Connectal.Pcie.Mifo
import Connectal.Pcie.Types

/-! `mkMemSlaveEngine` of `MemSlaveEngine.bsv`: requests of a memory master become read
and write packets to the host, and the completions of the host become read data. The
bus has `2 ^ k` words. The word queue of the library holds words in order. -/
namespace Connectal.Pcie

open Layout Rules

structure MemSlaveEngine where
  tlpOutFifo : Fifo (TLPData 16) 2
  tlpInFifo : Fifo (TLPData 16) 2
  tlpWriteHeaderFifo : Fifo (TLPData 16) 2
  writeDwCountFifo : Fifo (BitVec 10) 2
  writeIs3dwFifo : Fifo Bool 2
  writeIsHeaderOnlyFifo : Fifo Bool 2
  hitReg : BitVec 7
  completionMimo : Mifo 4 (BitVec 32)
  completionTagMimo : Mifo 4 (BitVec 8)
  writeDataMimo : Fifo (BitVec 32) 16
  writeBurstCount : BitVec 10
  writeBurstCountFifo : Fifo (BitVec 10) 2
  writeDwCount : BitVec 10
  tlpDwCount : BitVec 3
  lastTlp : Bool
  writeInProgress : Bool
  writeTag : Fifo (BitVec 8) 16
  doneTag : Fifo (BitVec 8) 16
  lastTag : BitVec 8
  tlpDecodeFifo : Fifo (TLPData 16) 2
  tlpWordCountFifo : Fifo Nat 2
  readReqFifo : Fifo (PhysMemRequest 40) 2

def tlpWordCount (tlp : TLPData 16) : Nat :=
  if tlp.be = 0x0000 then 0
  else if tlp.be = 0x000f ∨ tlp.be = 0xf000 then 1
  else if tlp.be = 0x00ff ∨ tlp.be = 0xff00 then 2
  else if tlp.be = 0x0fff ∨ tlp.be = 0xfff0 then 3
  else if tlp.be = 0xffff then 4
  else 0

section Requests

variable (k : Fin 3) (myId : BitVec 16) (req : PhysMemRequest 40)

/-- The number of beats of a burst. -/
def burstBeats : BitVec 8 := req.burstLen >>> (k.val + 2)

/-- The number of words of a burst. -/
def tlplen : BitVec 10 := BitVec.ofNat 10 (2 ^ k.val) * (burstBeats k req).setWidth 10

/-- The address fits in 32 bits. -/
def is3dw : Bool := req.addr >>> 32 == 0

/-- The first beat has all the data. -/
def isHeaderOnly : Bool := is3dw req && tlplen k req == 1

def header3dw (format : TLPPacketFormat) : TLPMemoryIO3DWHeader :=
  { TLPMemoryIO3DWHeader.defaultValue with
    format
    tag := req.tag.setWidth 8
    reqid := myId
    nosnoop := 0
    addr := req.addr.extractLsb' 2 30
    length := tlplen k req
    firstbe := 0xf
    lastbe := if 1 < (tlplen k req).toNat then 0xf else 0 }

def header4dw (format : TLPPacketFormat) : TLPMemory4DWHeader :=
  { TLPMemory4DWHeader.defaultValue with
    format
    tag := req.tag.setWidth 8
    reqid := myId
    nosnoop := 0
    addr := (req.addr.extractLsb' 2 38).setWidth 62
    length := tlplen k req
    firstbe := 0xf
    lastbe := if 1 < (tlplen k req).toNat then 0xf else 0 }

/-- The packet of a read request. -/
def readTlp : TLPData 16 :=
  if is3dw req then ⟨true, true, 0, 0xfff0, (header3dw k myId req .memRead3dwNoData).pack⟩
  else ⟨true, true, 0, 0xffff, (header4dw k myId req .memRead4dwNoData).pack⟩

/-- The first beat of the packet of a write request, before it gets its data word. -/
def writeTlp : TLPData 16 :=
  if is3dw req then ⟨true, false, 0, 0xfff0, (header3dw k myId req .memWrite3dwData).pack⟩
  else ⟨true, false, 0, 0xffff, (header4dw k myId req .memWrite4dwData).pack⟩

end Requests

namespace MemSlaveEngine

inductive Event (k : Fin 3) where
  | writeReq (req : PhysMemRequest 40)
  | writeData (data : MemData (Fin (2 ^ k.val) → BitVec 32))
  | writeDone (tag : BitVec 6)
  | readReq (req : PhysMemRequest 40)
  | readData (data : MemData (Fin (2 ^ k.val) → BitVec 32))
  | tlpOut (tlp : TLPData 16)
  | tlpIn (tlp : TLPData 16)

inductive Action (k : Fin 3) where
  | writeReqPut (req : PhysMemRequest 40)
  | writeDataPut (data : MemData (Fin (2 ^ k.val) → BitVec 32))
  | writeDoneGet
  | readReqPut (req : PhysMemRequest 40)
  | readDataGet
  | requestGet
  | responsePut (tlp : TLPData 16)
  | writeHeaderTlp
  | writeTlps (stale : Fin 4 → BitVec 32)
  | readReqRule
  | tlpInRule
  | handleTlpRule
  | tofifos
  | tagTofifos

variable {k : Fin 3}

/-- The first beat of a write packet, with the first data word if the header is short. -/
def headerBeat (tlp : TLPData 16) (is3dw : Bool) (dwCount : BitVec 10) (words : List (BitVec 32)) :
    TLPData 16 :=
  if is3dw then
    { tlp with
      be := 0xffff
      eof := if dwCount = 1 then true else tlp.eof
      data := { TLPMemoryIO3DWHeader.unpack tlp.data with data := byteSwap (words.headD 0) }.pack }
  else { tlp with be := 0xffff }

def writeHeaderTlp (s : MemSlaveEngine) : Option (MemSlaveEngine × List (Event k)) := do
  guard (s.writeInProgress = false)
  let (tlp, tlpWriteHeaderFifo) ← s.tlpWriteHeaderFifo.deq
  let (dwCount, writeDwCountFifo) ← s.writeDwCountFifo.deq
  let (is3dw, writeIs3dwFifo) ← s.writeIs3dwFifo.deq
  let (isHeaderOnly, writeIsHeaderOnlyFifo) ← s.writeIsHeaderOnlyFifo.deq
  let (words, writeDataMimo) ← s.writeDataMimo.deqN (if is3dw then 1 else 0)
  let tlpOutFifo ← s.tlpOutFifo.enq (headerBeat tlp is3dw dwCount words)
  let doneTag ← s.doneTag.enqIf isHeaderOnly (s.writeTag.items.headD 0)
  let writeTag ← s.writeTag.deqIf isHeaderOnly
  let left := if is3dw then dwCount - 1 else dwCount
  pure ({ s with
    tlpWriteHeaderFifo, writeDwCountFifo, writeIs3dwFifo, writeIsHeaderOnlyFifo, writeDataMimo
    tlpOutFifo, doneTag, writeTag
    writeDwCount := left
    tlpDwCount := BitVec.ofNat 3 (min 4 left.toNat)
    lastTlp := left.toNat ≤ 4
    writeInProgress := left != 0 }, [])

def writeTlps (stale : Fin 4 → BitVec 32) (s : MemSlaveEngine) :
    Option (MemSlaveEngine × List (Event k)) := do
  guard (s.writeInProgress = true)
  let (words, writeDataMimo) ← s.writeDataMimo.deqN s.tlpDwCount.toNat
  let tlpOutFifo ← s.tlpOutFifo.enq
    { (TLPData.defaultValue : TLPData 16) with
      eof := s.lastTlp, be := tlpBe s.tlpDwCount.toNat, data := beatData words stale }
  let doneTag ← s.doneTag.enqIf s.lastTlp (s.writeTag.items.headD 0)
  let writeTag ← s.writeTag.deqIf s.lastTlp
  let left := s.writeDwCount - s.tlpDwCount.setWidth 10
  pure ({ s with
    writeDataMimo, tlpOutFifo, doneTag, writeTag
    writeDwCount := left
    tlpDwCount := BitVec.ofNat 3 (min 4 left.toNat)
    lastTlp := left.toNat ≤ 4
    writeInProgress := !s.lastTlp }, [])

/-- Reads wait until no write data are in the module. -/
def readReqRule (myId : BitVec 16) (s : MemSlaveEngine) : Option (MemSlaveEngine × List (Event k)) := do
  guard (s.writeInProgress = false ∧ s.writeDataMimo.items = [])
  let (req, readReqFifo) ← s.readReqFifo.deq
  let tlpOutFifo ← s.tlpOutFifo.enq (readTlp k myId req)
  pure ({ s with readReqFifo, tlpOutFifo }, [])

def tlpInRule (s : MemSlaveEngine) : Option (MemSlaveEngine × List (Event k)) := do
  let (tlp, tlpInFifo) ← s.tlpInFifo.deq
  let tlpWordCountFifo ← s.tlpWordCountFifo.enq (tlpWordCount tlp)
  let tlpDecodeFifo ← s.tlpDecodeFifo.enq tlp
  pure ({ s with tlpInFifo, tlpWordCountFifo, tlpDecodeFifo }, [])

/-- A beat that cannot be handled stays where it is. -/
def handleTlpRule (s : MemSlaveEngine) : Option (MemSlaveEngine × List (Event k)) := do
  let (tlp, tlpDecodeFifo) ← s.tlpDecodeFifo.deq
  let (count, tlpWordCountFifo) ← s.tlpWordCountFifo.deq
  let hdr := TLPMemoryIO3DWHeader.unpack tlp.data
  let tag := (TLPCompletionHeader.unpack tlp.data).tag
  let isReady := s.completionMimo.enqReady ∧ s.completionTagMimo.enqReady
  if tlp.sof = false ∧ isReady then
    let completionMimo ← s.completionMimo.enq count fun i => tlp.words.getD i 0
    let completionTagMimo ← s.completionTagMimo.enq count fun _ => s.lastTag
    pure ({ s with hitReg := tlp.hit, completionMimo, completionTagMimo, tlpDecodeFifo, tlpWordCountFifo }, [])
  else if tlp.sof = true ∧ hdr.format = .memWrite3dwData ∧ hdr.pkttype = completion ∧ isReady then
    let completionMimo ← s.completionMimo.enq 1 fun i => if i = 0 then hdr.data else 0
    let completionTagMimo ← s.completionTagMimo.enq 1 fun _ => tag
    pure ({ s with
      hitReg := tlp.hit, lastTag := tag
      completionMimo, completionTagMimo, tlpDecodeFifo, tlpWordCountFifo }, [])
  else pure ({ s with hitReg := tlp.hit }, [])

def tofifos (s : MemSlaveEngine) : Option (MemSlaveEngine × List (Event k)) := do
  let completionMimo ← s.completionMimo.tofifos
  pure ({ s with completionMimo }, [])

def tagTofifos (s : MemSlaveEngine) : Option (MemSlaveEngine × List (Event k)) := do
  let completionTagMimo ← s.completionTagMimo.tofifos
  pure ({ s with completionTagMimo }, [])

def writeReqPut (myId : BitVec 16) (req : PhysMemRequest 40) (s : MemSlaveEngine) :
    Option (MemSlaveEngine × List (Event k)) := do
  let tlpWriteHeaderFifo ← s.tlpWriteHeaderFifo.enq (writeTlp k myId req)
  let writeDwCountFifo ← s.writeDwCountFifo.enq (tlplen k req)
  let writeIs3dwFifo ← s.writeIs3dwFifo.enq (is3dw req)
  let writeIsHeaderOnlyFifo ← s.writeIsHeaderOnlyFifo.enq (isHeaderOnly k req)
  let writeBurstCountFifo ← s.writeBurstCountFifo.enq ((burstBeats k req).setWidth 10)
  let writeTag ← s.writeTag.enq (req.tag.setWidth 8)
  pure ({ s with
    tlpWriteHeaderFifo, writeDwCountFifo, writeIs3dwFifo, writeIsHeaderOnlyFifo
    writeBurstCountFifo, writeTag }, [.writeReq req])

/-- The number of beats that are missing, before the next beat, and the queue of the later bursts. -/
def burstLeft (s : MemSlaveEngine) : Option (BitVec 10 × Fifo (BitVec 10) 2) :=
  if s.writeBurstCount = 0 then s.writeBurstCountFifo.deq
  else some (s.writeBurstCount, s.writeBurstCountFifo)

def writeDataPut (data : MemData (Fin (2 ^ k.val) → BitVec 32)) (s : MemSlaveEngine) :
    Option (MemSlaveEngine × List (Event k)) := do
  let (burstLen, writeBurstCountFifo) ← s.burstLeft
  let writeDataMimo ← s.writeDataMimo.enqAll (List.ofFn data.data)
  pure ({ s with
    writeBurstCountFifo, writeDataMimo
    writeBurstCount := burstLen - 1 }, [.writeData data])

def writeDoneGet (s : MemSlaveEngine) : Option (MemSlaveEngine × List (Event k)) := do
  let (tag, doneTag) ← s.doneTag.deq
  pure ({ s with doneTag }, [.writeDone (tag.setWidth 6)])

def readReqPut (req : PhysMemRequest 40) (s : MemSlaveEngine) :
    Option (MemSlaveEngine × List (Event k)) := do
  let readReqFifo ← s.readReqFifo.enq req
  pure ({ s with readReqFifo }, [.readReq req])

def readDataGet (s : MemSlaveEngine) : Option (MemSlaveEngine × List (Event k)) := do
  let (data, completionMimo) ← s.completionMimo.deq (2 ^ k.val)
  let (tags, completionTagMimo) ← s.completionTagMimo.deq (2 ^ k.val)
  pure ({ s with completionMimo, completionTagMimo },
    [.readData ⟨fun i => byteSwap (data.getD i 0), (tags.headD 0).setWidth 6, true⟩])

def requestGet (s : MemSlaveEngine) : Option (MemSlaveEngine × List (Event k)) := do
  let (tlp, tlpOutFifo) ← s.tlpOutFifo.deq
  pure ({ s with tlpOutFifo }, [.tlpOut tlp])

def responsePut (tlp : TLPData 16) (s : MemSlaveEngine) : Option (MemSlaveEngine × List (Event k)) := do
  let tlpInFifo ← s.tlpInFifo.enq tlp
  pure ({ s with tlpInFifo }, [.tlpIn tlp])

def fresh : MemSlaveEngine :=
  ⟨.empty, .empty, .empty, .empty, .empty, .empty, 0, .fresh (by decide), .fresh (by decide), .empty, 0,
    .empty, 0, 0, false, false, .empty, .empty, 0, .empty, .empty, .empty⟩

def machine (k : Fin 3) (myId : BitVec 16) : Machine MemSlaveEngine (Action k) (Event k) where
  init s := s = fresh
  fire
    | .writeReqPut req => writeReqPut myId req
    | .writeDataPut data => writeDataPut data
    | .writeDoneGet => writeDoneGet
    | .readReqPut req => readReqPut req
    | .readDataGet => readDataGet
    | .requestGet => requestGet
    | .responsePut tlp => responsePut tlp
    | .writeHeaderTlp => writeHeaderTlp
    | .writeTlps stale => writeTlps stale
    | .readReqRule => readReqRule myId
    | .tlpInRule => tlpInRule
    | .handleTlpRule => handleTlpRule
    | .tofifos => tofifos
    | .tagTofifos => tagTofifos

end MemSlaveEngine
end Connectal.Pcie
