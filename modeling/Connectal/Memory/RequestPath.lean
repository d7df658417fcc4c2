import Connectal.Memory.Types
import Connectal.Memory.TagLedger

/-! The way of a request from a client to the physical bus, which the read
server and the write server have in common: the request waits for its address
translation, gets a tag of its own, and waits for the bus. -/
namespace Connectal

open Rules

/-- The renamed tag of a request as it appears on the bus. -/
def busTag (tsz n : Nat) : BitVec 6 := (tagOf tsz n).setWidth 6

theorem busTag_setWidth {tsz : Nat} (h : tsz ≤ 6) (n : Nat) : (busTag tsz n).setWidth tsz = tagOf tsz n := by
  rw [busTag, BitVec.setWidth_setWidth_of_le _ h, BitVec.setWidth_eq]

/-- Queues and tag generator on the request side of an internal server. The
translation queue is as deep as the translation pipeline. -/
structure RequestPath (numClients numTags tsz addrWidth : Nat) where
  lreqFifo : Fifo (LRec numClients) 9
  reqFifo : Fifo (RRec numClients addrWidth) 2
  tagGen : TagGen numTags tsz
  dmaErrorFifo : Fifo DmaError 2

namespace RequestPath

variable {numClients numTags tsz addrWidth : Nat}

def powerUp (mem : BitVec tsz → Bool) : RequestPath numClients numTags tsz addrWidth where
  lreqFifo := Fifo.empty
  reqFifo := Fifo.empty
  tagGen := TagGen.powerUp mem
  dmaErrorFifo := Fifo.empty

/-- Accept a request from a client. A request for a translation unit or a
scatter list that does not exist is only reported; any other request is queued
and sent to its translation unit. -/
def loadClient (mmuOutOfRange sglIdOutOfRange : DmaErrorType) (numMMUs : Nat)
    (s : RequestPath numClients numTags tsz addrWidth) (client : Fin numClients)
    (req : MemRequest) :
    Option (RequestPath numClients numTags tsz addrWidth × Option DmaErrorType) := do
  if numMMUs ≤ req.mmusel.toNat then
    let dmaErrorFifo ← s.dmaErrorFifo.enq ⟨mmuOutOfRange, req.sglId⟩
    return ({ s with dmaErrorFifo }, some mmuOutOfRange)
  else if req.sglidOutofrange then
    let dmaErrorFifo ← s.dmaErrorFifo.enq ⟨sglIdOutOfRange, req.sglId⟩
    return ({ s with dmaErrorFifo }, some sglIdOutOfRange)
  else
    let lreqFifo ← s.lreqFifo.enq ⟨req, client⟩
    return ({ s with lreqFifo }, none)

/-- Pair the oldest untranslated request with the next answer of its
translation unit and rename it. -/
def checkMmuResp (s : RequestPath numClients numTags tsz addrWidth)
    (physAddr : BitVec addrWidth) :
    Option (RRec numClients addrWidth × RequestPath numClients numTags tsz addrWidth) := do
  let (l, lreqFifo) ← s.lreqFifo.deq
  let (renameTag, tagGen) ← s.tagGen.getTag
  let r : RRec numClients addrWidth := ⟨l.req, physAddr, renameTag.setWidth 6, l.client⟩
  let reqFifo ← s.reqFifo.enq r
  return (r, { s with lreqFifo, reqFifo, tagGen })

/-- Report the oldest error to software. -/
def dmaError (s : RequestPath numClients numTags tsz addrWidth) :
    Option (DmaError × RequestPath numClients numTags tsz addrWidth) := do
  let (error, dmaErrorFifo) ← s.dmaErrorFifo.deq
  return (error, { s with dmaErrorFifo })

/-- One of the tag generator's own rules. -/
def tagRule (s : RequestPath numClients numTags tsz addrWidth) (r : TagGen.Rule) :
    Option (RequestPath numClients numTags tsz addrWidth) := do
  let (tagGen, _) ← TagGen.runRule r s.tagGen
  return { s with tagGen }

section Inversion

variable {s s' : RequestPath numClients numTags tsz addrWidth}

theorem loadClient_cases {mmuOutOfRange sglIdOutOfRange : DmaErrorType} {numMMUs : Nat}
    {client : Fin numClients} {req : MemRequest} {refused : Option DmaErrorType}
    (h : loadClient mmuOutOfRange sglIdOutOfRange numMMUs s client req = some (s', refused)) :
    (∃ e q, refused = some e ∧ s' = { s with dmaErrorFifo := q }) ∨
      (refused = none ∧ ∃ q : Fifo (LRec numClients) 9,
        q.items = s.lreqFifo.items ++ [⟨req, client⟩] ∧ s' = { s with lreqFifo := q }) := by
  unfold loadClient at h
  split at h
  · simp only [firing] at h
    obtain ⟨q, -, rfl, rfl⟩ := h
    exact .inl ⟨_, q, rfl, rfl⟩
  · split at h
    · simp only [firing] at h
      obtain ⟨q, -, rfl, rfl⟩ := h
      exact .inl ⟨_, q, rfl, rfl⟩
    · simp only [firing] at h
      obtain ⟨q, ⟨-, hq⟩, rfl, rfl⟩ := h
      exact .inr ⟨rfl, q, hq, rfl⟩

/-- A request that is queued names a scatter list that exists. -/
theorem sglId_inRange {mmuOutOfRange sglIdOutOfRange : DmaErrorType} {numMMUs : Nat}
    {client : Fin numClients} {req : MemRequest}
    (h : loadClient mmuOutOfRange sglIdOutOfRange numMMUs s client req = some (s', none)) :
    req.sglidOutofrange = false := by
  unfold loadClient at h
  split at h
  · simp [Option.bind_eq_some_iff] at h
  · split at h
    · simp [Option.bind_eq_some_iff] at h
    · next hRange => simpa using hRange

theorem checkMmuResp_cases {physAddr : BitVec addrWidth} {r : RRec numClients addrWidth}
    (h : checkMmuResp s physAddr = some (r, s')) :
    ∃ (l : LRec numClients) (rest : Fifo (LRec numClients) 9) (tag : BitVec tsz)
      (tagGen : TagGen numTags tsz) (q : Fifo (RRec numClients addrWidth) 2),
      s.lreqFifo.items = l :: rest.items ∧ s.tagGen.getTag = some (tag, tagGen) ∧
      q.items = s.reqFifo.items ++ [⟨l.req, physAddr, tag.setWidth 6, l.client⟩] ∧
      r = ⟨l.req, physAddr, tag.setWidth 6, l.client⟩ ∧
      s' = { s with lreqFifo := rest, reqFifo := q, tagGen } := by
  simp only [checkMmuResp, firing] at h
  obtain ⟨l, rest, hl, tag, tagGen, hTag, q, ⟨-, hq⟩, rfl, rfl⟩ := h
  exact ⟨l, rest, tag, tagGen, q, hl, hTag, hq, rfl, rfl⟩

theorem dmaError_cases {error : DmaError} (h : dmaError s = some (error, s')) :
    ∃ q, s' = { s with dmaErrorFifo := q } := by
  simp only [dmaError, firing] at h
  obtain ⟨_, q, -, -, rfl⟩ := h
  exact ⟨q, rfl⟩

theorem tagRule_cases {r : TagGen.Rule} (h : tagRule s r = some s') :
    ∃ tagGen events, TagGen.runRule r s.tagGen = some (tagGen, events) ∧ s' = { s with tagGen } := by
  simp only [tagRule, firing] at h
  obtain ⟨tagGen, events, hTag, rfl⟩ := h
  exact ⟨tagGen, events, hTag, rfl⟩

end Inversion

end RequestPath
end Connectal
