import Connectal.Memory.Types

/-! The address translation unit `mkMMU`. A scatter list has a region record,
which says how far its large, middle and small pages reach, and a page table. A
translation goes through five pipeline stages, separately for each of two ports;
a request that cannot be translated leaves the pipeline with an error report. -/
namespace Connectal

open Rules

/-- Page class of an offset (0: none, 1: 4 KB, 2: 64 KB, 3: 1 MB) and the bits
of the offset that a page of the largest class needs. -/
structure Offset where
  pageSize : BitVec 2
  value : BitVec 20
  deriving DecidableEq, Repr

/-- Where the pages of one class end, and what to add to a page number of that
class to get its index in the page table. -/
structure SingleRegion where
  barrier : BitVec 32
  idxOffset : BitVec 8
  deriving DecidableEq, Repr

structure Region where
  reg8 : SingleRegion
  reg4 : SingleRegion
  reg0 : SingleRegion
  deriving DecidableEq, Repr

/-- The error report of the translation unit. -/
structure MMUError where
  errorType : DmaErrorType
  pref : BitVec 32
  off : BitVec 44
  deriving DecidableEq, Repr

/-- Queues of one translation port. -/
structure MMUPort (addrWidth : Nat) where
  incomingReqs : Fifo ReqTup 2
  reqs0 : Fifo ReqTup 3
  conds : Fifo (Bool × Bool × Bool) 2
  idxOffsets0 : Fifo (BitVec 8 × BitVec 8 × BitVec 8) 2
  reqs1 : Fifo ReqTup 3
  offs0 : Fifo Offset 2
  pbases : Fifo (BitVec 8) 2
  idxOffsets1 : Fifo (BitVec 8) 2
  ptrs1 : Fifo (BitVec 5) 2
  offs1 : Fifo Offset 3
  pageResponseFifo : Fifo (BitVec addrWidth) 2

/-- The state of `mkMMU`: the generator of scatter list numbers, region records
and page tables, and the two ports. -/
structure MMU (addrWidth : Nat) where
  sglIdGen : TagGen 32 5
  regall : Bram (BitVec 5) (Option Region) 3
  pages : Bram (BitVec 5 × BitVec 8) (BitVec 32) 3
  port : Fin 2 → MMUPort addrWidth
  dmaErrorFifo : Fifo MMUError 2
  configRespFifo : Fifo (BitVec 5) 2
  idReturnFifo : Fifo (BitVec 32) 32

namespace MMUPort

variable {addrWidth : Nat}

def empty : MMUPort addrWidth where
  incomingReqs := Fifo.empty
  reqs0 := Fifo.empty
  conds := Fifo.empty
  idxOffsets0 := Fifo.empty
  reqs1 := Fifo.empty
  offs0 := Fifo.empty
  pbases := Fifo.empty
  idxOffsets1 := Fifo.empty
  ptrs1 := Fifo.empty
  offs1 := Fifo.empty
  pageResponseFifo := Fifo.empty

end MMUPort

/-- Which of the three barriers lie above the offset. -/
def Region.conds (region : Region) (off : BitVec 44) : Bool × Bool × Bool :=
  let off0 : BitVec 32 := (off >>> 12).setWidth 32
  let off4 : BitVec 28 := (off >>> 16).setWidth 28
  let off8 : BitVec 24 := (off >>> 20).setWidth 24
  (off8 < region.reg8.barrier.setWidth 24, off4 < region.reg4.barrier.setWidth 28,
    off0 < region.reg0.barrier)

def Region.idxOffsets (region : Region) : BitVec 8 × BitVec 8 × BitVec 8 :=
  (region.reg8.idxOffset, region.reg4.idxOffset, region.reg0.idxOffset)

/-- A request after the comparison with the barriers. -/
structure Compared where
  req : ReqTup
  conds : Bool × Bool × Bool
  idxOffsets : BitVec 8 × BitVec 8 × BitVec 8
  deriving DecidableEq, Repr

/-- A request after the selection of its page class. -/
structure Selected where
  off : Offset
  pbase : BitVec 8
  idxOffset : BitVec 8
  ptr : BitVec 5
  deriving DecidableEq, Repr

/-- Select the largest page class whose barrier lies above the offset. -/
def Compared.select (c : Compared) : Selected :=
  let value := c.req.off.setWidth 20
  if c.conds.1 then ⟨⟨3, value⟩, (c.req.off >>> 20).setWidth 8, c.idxOffsets.1, c.req.id⟩
  else if c.conds.2.1 then ⟨⟨2, value⟩, (c.req.off >>> 16).setWidth 8, c.idxOffsets.2.1, c.req.id⟩
  else if c.conds.2.2 then ⟨⟨1, value⟩, (c.req.off >>> 12).setWidth 8, c.idxOffsets.2.2, c.req.id⟩
  else ⟨⟨0, value⟩, 0, 0, c.req.id⟩

/-- Address of the page table entry of a selected page. -/
def Selected.entry (x : Selected) : BitVec 5 × BitVec 8 := (x.ptr, x.pbase + x.idxOffset)

/-- Report for an offset beyond the last page. Only the low bits of the offset
are left at this stage. -/
def Selected.outOfRange (x : Selected) : MMUError :=
  ⟨.offsetOutOfRange, x.ptr.setWidth 32, x.off.value.setWidth 44⟩

/-- Report for a scatter list without a region record. -/
def ReqTup.invalid (req : ReqTup) : MMUError := ⟨.sglIdInvalid, req.id.setWidth 32, req.off⟩

/-- Page base and the low bits of the offset, joined at the page size of the
class. Class 0 does not get here. -/
def Offset.address (addrWidth : Nat) (offset : Offset) (page : BitVec 32) : BitVec addrWidth :=
  let rv : BitVec 44 :=
    if offset.pageSize = 1#2 then (page ++ offset.value.setWidth 12).setWidth 44
    else if offset.pageSize = 2#2 then (page.setWidth 28 ++ offset.value.setWidth 16).setWidth 44
    else (page.setWidth 24 ++ offset.value).setWidth 44
  rv.setWidth addrWidth

namespace MMU

variable {addrWidth : Nat}

/-- Reset state, with unspecified contents of the block memories. -/
def powerUp (tagMem : BitVec 5 → Bool) (regMem : BitVec 5 → Option Region)
    (pageMem : BitVec 5 × BitVec 8 → BitVec 32) : MMU addrWidth where
  sglIdGen := TagGen.powerUp tagMem
  regall := Bram.powerUp regMem
  pages := Bram.powerUp pageMem
  port := fun _ => MMUPort.empty
  dmaErrorFifo := Fifo.empty
  configRespFifo := Fifo.empty
  idReturnFifo := Fifo.empty

variable (s : MMU addrWidth)

def setPort (i : Fin 2) (p : MMUPort addrWidth) : MMU addrWidth :=
  { s with port := Function.update s.port i p }

/-- First read the barriers of the scatter list. -/
def stage1 (i : Fin 2) : Option (ReqTup × MMU addrWidth) := do
  let (req, incomingReqs) ← (s.port i).incomingReqs.deq
  let regall ← s.regall.read i req.id
  let reqs0 ← (s.port i).reqs0.enq req
  return (req, { s with regall }.setPort i { s.port i with incomingReqs, reqs0 })

/-- Compare the barriers with the offset. A scatter list without a region
record is reported. -/
def stage2 (i : Fin 2) : Option (Except MMUError ReqTup × MMU addrWidth) := do
  let (req, reqs0) ← (s.port i).reqs0.deq
  let (m_regionall, regall) ← s.regall.get i
  match m_regionall with
  | some regionall =>
    let conds ← (s.port i).conds.enq (regionall.conds req.off)
    let idxOffsets0 ← (s.port i).idxOffsets0.enq regionall.idxOffsets
    let reqs1 ← (s.port i).reqs1.enq req
    return (.ok req,
      { s with regall }.setPort i { s.port i with reqs0, conds, idxOffsets0, reqs1 })
  | none =>
    let dmaErrorFifo ← s.dmaErrorFifo.enq req.invalid
    return (.error req.invalid,
      { s with regall, dmaErrorFifo }.setPort i { s.port i with reqs0 })

/-- Select a page class. -/
def stage3 (i : Fin 2) : Option (MMU addrWidth) := do
  let (req, reqs1) ← (s.port i).reqs1.deq
  let (cond, conds) ← (s.port i).conds.deq
  let (idxOffset, idxOffsets0) ← (s.port i).idxOffsets0.deq
  let x := (Compared.mk req cond idxOffset).select
  let offs0 ← (s.port i).offs0.enq x.off
  let pbases ← (s.port i).pbases.enq x.pbase
  let idxOffsets1 ← (s.port i).idxOffsets1.enq x.idxOffset
  let ptrs1 ← (s.port i).ptrs1.enq x.ptr
  return s.setPort i
    { s.port i with reqs1, conds, idxOffsets0, offs0, pbases, idxOffsets1, ptrs1 }

/-- Read the page table entry. An offset without a page class is reported. -/
def stage4 (i : Fin 2) : Option (Option MMUError × MMU addrWidth) := do
  let (off, offs0) ← (s.port i).offs0.deq
  let (pbase, pbases) ← (s.port i).pbases.deq
  let (idxOffset, idxOffsets1) ← (s.port i).idxOffsets1.deq
  let (ptr, ptrs1) ← (s.port i).ptrs1.deq
  let x : Selected := ⟨off, pbase, idxOffset, ptr⟩
  if off.pageSize = 0#2 then
    let dmaErrorFifo ← s.dmaErrorFifo.enq x.outOfRange
    return (some x.outOfRange,
      { s with dmaErrorFifo }.setPort i { s.port i with offs0, pbases, idxOffsets1, ptrs1 })
  else
    let pages ← s.pages.read i x.entry
    let offs1 ← (s.port i).offs1.enq off
    return (none,
      { s with pages }.setPort i { s.port i with offs0, pbases, idxOffsets1, ptrs1, offs1 })

/-- Join page base and offset. -/
def stage5 (i : Fin 2) : Option (MMU addrWidth) := do
  let (page, pages) ← s.pages.get i
  let (offset, offs1) ← (s.port i).offs1.deq
  let pageResponseFifo ← (s.port i).pageResponseFifo.enq (offset.address addrWidth page)
  return { s with pages }.setPort i { s.port i with offs1, pageResponseFifo }

/-- Ask a port for a translation. -/
def put (i : Fin 2) (req : ReqTup) : Option (MMU addrWidth) := do
  let incomingReqs ← (s.port i).incomingReqs.enq req
  return s.setPort i { s.port i with incomingReqs }

/-- Take a port's next answer. -/
def get (i : Fin 2) : Option (BitVec addrWidth × MMU addrWidth) := do
  let (rv, pageResponseFifo) ← (s.port i).pageResponseFifo.deq
  return (rv, s.setPort i { s.port i with pageResponseFifo })

/-- Report the oldest error to software. -/
def dmaError : Option (MMUError × MMU addrWidth) := do
  let (error, dmaErrorFifo) ← s.dmaErrorFifo.deq
  return (error, { s with dmaErrorFifo })

def sendConfigResp : Option (BitVec 32 × MMU addrWidth) := do
  let (ptr, configRespFifo) ← s.configRespFifo.deq
  return (ptr.setWidth 32, { s with configRespFifo })

/-- Invalidate a scatter list that software gave back, and free its number. -/
def idReturnRule : Option (BitVec 32 × MMU addrWidth) := do
  let (sglId, idReturnFifo) ← s.idReturnFifo.deq
  let sglIdGen ← s.sglIdGen.returnTag (sglId.setWidth 5)
  let regall ← s.regall.write 1 (sglId.setWidth 5) none
  return (sglId, { s with idReturnFifo, sglIdGen, regall })

def completeSglIdGen : Option (MMU addrWidth) := do
  let (_, sglIdGen) ← s.sglIdGen.complete
  return { s with sglIdGen }

/-- Hand out a scatter list number, tagged with the number of this unit. -/
def idRequest (iid : BitVec 32) : Option (BitVec 32 × MMU addrWidth) := do
  let (nextId, sglIdGen) ← s.sglIdGen.getTag
  return ((iid <<< 16) ||| nextId.setWidth 32, { s with sglIdGen })

def idReturn (sglId : BitVec 32) : Option (MMU addrWidth) := do
  let idReturnFifo ← s.idReturnFifo.enq sglId
  return { s with idReturnFifo }

/-- The region record that the arguments of a `region` call make. -/
def regionOf (barr8 : BitVec 64) (index8 : BitVec 32) (barr4 : BitVec 64) (index4 : BitVec 32)
    (barr0 : BitVec 64) (index0 : BitVec 32) : Region where
  reg8 := ⟨barr8.setWidth 32, index8.setWidth 8⟩
  reg4 := ⟨barr4.setWidth 32, index4.setWidth 8⟩
  reg0 := ⟨barr0.setWidth 32, index0.setWidth 8⟩

def region (pointer : BitVec 32) (barr8 : BitVec 64) (index8 : BitVec 32) (barr4 : BitVec 64)
    (index4 : BitVec 32) (barr0 : BitVec 64) (index0 : BitVec 32) : Option (MMU addrWidth) := do
  let regall ← s.regall.write 1 (pointer.setWidth 5)
    (some (regionOf barr8 index8 barr4 index4 barr0 index0))
  let configRespFifo ← s.configRespFifo.enq (pointer.setWidth 5)
  return { s with regall, configRespFifo }

/-- Write one page table entry. The length is not stored. -/
def sglist (pointer pointerIndex : BitVec 32) (addr : BitVec 64) (_len : BitVec 32) :
    Option (MMU addrWidth) := do
  let pages ← s.pages.write 0 (pointer.setWidth 5, pointerIndex.setWidth 8) (addr.setWidth 32)
  return { s with pages }

/-- Rules that fire without a caller. -/
inductive Rule where
  | stage1 (i : Fin 2)
  | stage2 (i : Fin 2)
  | stage3 (i : Fin 2)
  | stage4 (i : Fin 2)
  | stage5 (i : Fin 2)
  | dmaError
  | sendConfigResp
  | idReturnRule
  | completeSglIdGen
  | tagRule (r : TagGen.Rule)
  deriving DecidableEq, Repr

/-- Rules and method calls of the translation unit. -/
inductive Action where
  | rule (r : Rule)
  | put (i : Fin 2) (req : ReqTup)
  | get (i : Fin 2)
  | idRequest
  | idReturn (sglId : BitVec 32)
  | region (pointer : BitVec 32) (barr8 : BitVec 64) (index8 : BitVec 32) (barr4 : BitVec 64)
      (index4 : BitVec 32) (barr0 : BitVec 64) (index0 : BitVec 32)
  | sglist (pointer pointerIndex : BitVec 32) (addr : BitVec 64) (len : BitVec 32)
  deriving DecidableEq, Repr

/-- A change of the tables. -/
inductive Config where
  | sglist (pointer pointerIndex : BitVec 32) (addr : BitVec 64) (len : BitVec 32)
  | region (pointer : BitVec 32) (barr8 : BitVec 64) (index8 : BitVec 32) (barr4 : BitVec 64)
      (index4 : BitVec 32) (barr0 : BitVec 64) (index0 : BitVec 32)
  | invalidate (sglId : BitVec 32)
  deriving DecidableEq, Repr

inductive Event (addrWidth : Nat) where
  | requested (i : Fin 2) (req : ReqTup)
  | lookedUp (i : Fin 2) (req : ReqTup)
  | passed (i : Fin 2) (req : ReqTup)
  | rejected (i : Fin 2) (error : MMUError)
  | answered (i : Fin 2) (addr : BitVec addrWidth)
  | reported (error : MMUError)
  | config (c : Config)
  | configResp (pointer : BitVec 32)
  | idResponse (sglId : BitVec 32)
  | idReturned (sglId : BitVec 32)
  deriving DecidableEq, Repr

/-- The event of a decision of the second stage. -/
def Event.decided (i : Fin 2) : Except MMUError ReqTup → Event addrWidth
  | .ok req => .passed i req
  | .error e => .rejected i e

def runRule : Rule → MMU addrWidth → Option (MMU addrWidth × List (Event addrWidth))
  | .stage1 i, s => (s.stage1 i).map fun r => (r.2, [.lookedUp i r.1])
  | .stage2 i, s => (s.stage2 i).map fun r => (r.2, [Event.decided i r.1])
  | .stage3 i, s => (s.stage3 i).map fun s' => (s', [])
  | .stage4 i, s => (s.stage4 i).map fun r => (r.2, r.1.toList.map (.rejected i))
  | .stage5 i, s => (s.stage5 i).map fun s' => (s', [])
  | .dmaError, s => s.dmaError.map fun r => (r.2, [.reported r.1])
  | .sendConfigResp, s => s.sendConfigResp.map fun r => (r.2, [.configResp r.1])
  | .idReturnRule, s => s.idReturnRule.map fun r => (r.2, [.config (.invalidate r.1)])
  | .completeSglIdGen, s => s.completeSglIdGen.map fun s' => (s', [])
  | .tagRule r, s => (TagGen.runRule r s.sglIdGen).map fun g => ({ s with sglIdGen := g.1 }, [])

def fire (iid : BitVec 32) : Action → MMU addrWidth → Option (MMU addrWidth × List (Event addrWidth))
  | .rule r, s => runRule r s
  | .put i req, s => (s.put i req).map fun s' => (s', [.requested i req])
  | .get i, s => (s.get i).map fun r => (r.2, [.answered i r.1])
  | .idRequest, s => (s.idRequest iid).map fun r => (r.2, [.idResponse r.1])
  | .idReturn sglId, s => (s.idReturn sglId).map fun s' => (s', [.idReturned sglId])
  | .region pointer barr8 index8 barr4 index4 barr0 index0, s =>
    (s.region pointer barr8 index8 barr4 index4 barr0 index0).map fun s' =>
      (s', [.config (.region pointer barr8 index8 barr4 index4 barr0 index0)])
  | .sglist pointer pointerIndex addr len, s =>
    (s.sglist pointer pointerIndex addr len).map fun s' =>
      (s', [.config (.sglist pointer pointerIndex addr len)])

/-- Translation unit number `iid` from any power-up contents of its memories. -/
def machine (addrWidth : Nat) (iid : BitVec 32) : Machine (MMU addrWidth) Action (Event addrWidth) where
  init s := ∃ tagMem regMem pageMem, s = powerUp tagMem regMem pageMem
  fire := fire iid

end MMU
end Connectal
