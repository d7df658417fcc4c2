import Connectal.Memory.Types
import Connectal.Pcie.Types
import Connectal.Rules.Batch

/-! `mkMemMasterEngine` of `MemMasterEngine.bsv`: read and write packets from the host
become requests to a memory slave, and what the slave returns becomes completions.
The word queue of the library holds words in order. -/
namespace Connectal.Pcie

open Layout Rules

/-- The low address bits of a completion, from the first valid byte of the request. -/
def getLowerAddr (addr : BitVec 30) (firstbe : BitVec 4) : BitVec 7 :=
  addr.extractLsb' 0 5 ++
    if firstbe.getLsbD 0 then 0#2
    else if firstbe.getLsbD 1 then 1#2
    else if firstbe.getLsbD 2 then 2#2
    else if firstbe.getLsbD 3 then 3#2
    else 0#2

structure MemMasterEngine where
  hitReg : BitVec 7
  readHeaderFifo : Fifo TLPMemoryIO3DWHeader 8
  readDataFifo : Fifo TLPMemoryIO3DWHeader 8
  writeHeaderFifo : Fifo TLPMemoryIO3DWHeader 8
  writeDataFifo : Fifo TLPMemoryIO3DWHeader 8
  tlpOutFifo : Fifo (TLPData 16) 8
  completionMimo : Fifo (BitVec 32) 4
  readBurstCount : BitVec 10
  completionMimoDeqCount : BitVec 3
  readBurstCountGreaterThan4 : Bool
  readInProgress : Bool

/-- The physical request of a packet. -/
def TLPMemoryIO3DWHeader.request (hdr : TLPMemoryIO3DWHeader) : PhysMemRequest 32 :=
  ⟨hdr.addr.setWidth 32 <<< 2, (hdr.length <<< 2).setWidth 8, hdr.tag.setWidth 6⟩

/-- The header of the completion of a read, with its first word. -/
def completionOf (myId : BitVec 16) (hdr : TLPMemoryIO3DWHeader) (word : BitVec 32) : TLPCompletionHeader :=
  { TLPCompletionHeader.defaultValue with
    format := .memWrite3dwData
    pkttype := completion
    relaxed := hdr.relaxed
    nosnoop := hdr.nosnoop
    length := hdr.length
    tclass := hdr.tclass
    cmplid := myId
    tag := hdr.tag
    bytecount := 4
    reqid := hdr.reqid
    loweraddr := getLowerAddr hdr.addr hdr.firstbe
    data := byteSwap word }

namespace MemMasterEngine

inductive Event where
  | tlpIn (tlp : TLPData 16)
  | tlpOut (tlp : TLPData 16)
  | readReq (req : PhysMemRequest 32)
  | readData (word : BitVec 32)
  | writeReq (req : PhysMemRequest 32)
  | writeData (data : MemData (BitVec 32))
  deriving DecidableEq

inductive Action where
  | responsePut (tlp : TLPData 16)
  | requestGet
  | completionHeader
  | continuation (stale : Fin 4 → BitVec 32)
  | readReqGet
  | readDataPut (word : BitVec 32)
  | writeReqGet
  | writeDataGet

/-- A packet that finds its queue full is lost. -/
def responsePut (tlp : TLPData 16) (s : MemMasterEngine) : Option (MemMasterEngine × List Event) :=
  let hdr := TLPMemoryIO3DWHeader.unpack tlp.data
  if hdr.format = .memRead3dwNoData then
    some ({ s with
      hitReg := tlp.hit
      readHeaderFifo := (s.readHeaderFifo.enq hdr).getD s.readHeaderFifo }, [.tlpIn tlp])
  else
    some ({ s with
      hitReg := tlp.hit
      writeHeaderFifo := (s.writeHeaderFifo.enq hdr).getD s.writeHeaderFifo }, [.tlpIn tlp])

def requestGet (s : MemMasterEngine) : Option (MemMasterEngine × List Event) := do
  let (tlp, tlpOutFifo) ← s.tlpOutFifo.deq
  pure ({ s with tlpOutFifo }, [.tlpOut tlp])

/-- The first beat of a completion has the first word. -/
def completionHeader (myId : BitVec 16) (s : MemMasterEngine) : Option (MemMasterEngine × List Event) := do
  guard (s.readInProgress = false)
  let (hdr, rest) ← s.readDataFifo.deq
  let (word, completionMimo) ← s.completionMimo.deq
  let rbc := hdr.length - 1
  let tlpOutFifo ← s.tlpOutFifo.enq
    ⟨true, hdr.length == 1, s.hitReg, 0xffff, (completionOf myId hdr word).pack⟩
  pure ({ s with
    completionMimo, tlpOutFifo
    readBurstCount := rbc
    completionMimoDeqCount := BitVec.ofNat 3 (min 4 rbc.toNat)
    readInProgress := rbc != 0
    readBurstCountGreaterThan4 := 4 < rbc.toNat
    readDataFifo := if rbc = 0 then rest else s.readDataFifo }, [])

def continuation (stale : Fin 4 → BitVec 32) (s : MemMasterEngine) :
    Option (MemMasterEngine × List Event) := do
  guard (s.readInProgress = true)
  let (words, completionMimo) ← s.completionMimo.deqN s.completionMimoDeqCount.toNat
  let last := !s.readBurstCountGreaterThan4
  let rbc := if last then 0 else s.readBurstCount - 4
  let be := if last then tlpBe s.readBurstCount.toNat else tlpBe 4
  let tlpOutFifo ← s.tlpOutFifo.enq
    { (TLPData.defaultValue : TLPData 16) with eof := last, be, data := beatData words stale }
  let readDataFifo ← s.readDataFifo.deqIf last
  pure ({ s with
    completionMimo, tlpOutFifo, readDataFifo
    readBurstCount := rbc
    completionMimoDeqCount := BitVec.ofNat 3 (min 4 rbc.toNat)
    readBurstCountGreaterThan4 := 4 < rbc.toNat
    readInProgress := !last }, [])

def readReqGet (s : MemMasterEngine) : Option (MemMasterEngine × List Event) := do
  let (hdr, readHeaderFifo) ← s.readHeaderFifo.deq
  let readDataFifo ← s.readDataFifo.enq hdr
  pure ({ s with readHeaderFifo, readDataFifo }, [.readReq hdr.request])

def readDataPut (word : BitVec 32) (s : MemMasterEngine) : Option (MemMasterEngine × List Event) := do
  let completionMimo ← s.completionMimo.enq word
  pure ({ s with completionMimo }, [.readData word])

def writeReqGet (s : MemMasterEngine) : Option (MemMasterEngine × List Event) := do
  let (hdr, writeHeaderFifo) ← s.writeHeaderFifo.deq
  let writeDataFifo ← s.writeDataFifo.enq hdr
  pure ({ s with writeHeaderFifo, writeDataFifo }, [.writeReq hdr.request])

def writeDataGet (s : MemMasterEngine) : Option (MemMasterEngine × List Event) := do
  let (hdr, writeDataFifo) ← s.writeDataFifo.deq
  pure ({ s with writeDataFifo }, [.writeData ⟨byteSwap hdr.data, hdr.tag.setWidth 6, true⟩])

def fresh : MemMasterEngine :=
  ⟨0, .empty, .empty, .empty, .empty, .empty, .empty, 0, 0, false, false⟩

def machine (myId : BitVec 16) : Machine MemMasterEngine Action Event where
  init s := s = fresh
  fire
    | .responsePut tlp => responsePut tlp
    | .requestGet => requestGet
    | .completionHeader => completionHeader myId
    | .continuation stale => continuation stale
    | .readReqGet => readReqGet
    | .readDataPut word => readDataPut word
    | .writeReqGet => writeReqGet
    | .writeDataGet => writeDataGet

end MemMasterEngine
end Connectal.Pcie
