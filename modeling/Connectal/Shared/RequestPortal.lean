import Connectal.Shared.Sender

/-! The hardware that receives messages from shared memory: `mkSharedMemoryRequestPortal`
with the memory engines below it, next to a program that sends. Every word carries the
lap and the purpose of the write that it comes from; no rule looks at them. -/
namespace Connectal.Shared

open Rules

/-- A word and its last write by the sender: the lap of the ring, and the purpose. -/
structure Word where
  value : BitVec 32
  origin : Option (Nat × Kind)
  deriving DecidableEq, Repr

inductive PortalState where
  | idle
  | headRequested
  | tailRequested
  | requestMessage
  | messageHeaderRequested
  | messageRequested
  | drain
  | updateTail
  | waiting
  deriving DecidableEq, Repr

/-- Registers and queues of the portal. The words of `readMifo` are kept in order: up to
two pairs before its lanes and sixteen words in its lanes. -/
structure RequestPortal where
  readyReg : Bool
  reqLimitReg : BitVec 32
  reqHeadReg : BitVec 32
  reqTailReg : BitVec 32
  wordCountReg : BitVec 16
  messageWordsReg : BitVec 16
  methodIdReg : BitVec 16
  reqState : PortalState
  inFifo : Fifo (Word × Word) 2
  lanes : Fifo Word 16
  /-- The lap of the tail index. -/
  lap : Nat
  /-- The lap of the words that are read. -/
  batchLap : Nat

/-- The portal, its engines and the sender around one memory. The read engine has beats
of two words to fetch, and the write engine has indices to write. -/
structure RequestSystem where
  cells : Nat → Word
  lap : Nat
  sender : SenderPc
  portal : RequestPortal
  fetches : List Nat
  dataPipe : List (Word × Word)
  writes : List (BitVec 32)
  responses : Nat

inductive PortalEvent where
  | sent (m : Message)
  | enq (method : BitVec 16) (data : BitVec 32)
  | parsed (hdr : Word) (lap : Nat)
  | published (tail head : BitVec 32)
  deriving DecidableEq

namespace RequestSystem

/-- The beats of a command of the read engine, by the index of their first words. -/
def beats (base words : Nat) : List Nat := (List.range (words / 2)).map fun i => base + 2 * i

def mem (s : RequestSystem) : Memory := fun i => (s.cells i).value

/-- The lap after a step of the sender. -/
def nextLap (reqsize : Nat) (s : RequestSystem) : Nat :=
  match s.sender with
  | .publish m =>
    if s.mem.index sharedWrite + sendWords m.hdr + reqwords reqsize ≥ s.mem.index sharedLimit
    then s.lap + 1 else s.lap
  | _ => s.lap

def store (s : RequestSystem) : Option Store → RequestSystem
  | none => s
  | some st => { s with cells := Function.update s.cells st.index ⟨st.value, some (s.lap, st.kind)⟩ }

def call (m : Message) (s : RequestSystem) : Option RequestSystem := do
  let sender ← callProxy s.mem m s.sender
  return { s with sender }

def sendStep (reqsize : Nat) (s : RequestSystem) : Option RequestSystem := do
  let (sender, st) ← senderStep reqsize s.mem s.sender
  return { s.store st with sender, lap := s.nextLap reqsize }

def setSglId (s : RequestSystem) : Option RequestSystem :=
  some { s with portal := { s.portal with readyReg := true } }

def updateReqHeadTail (s : RequestSystem) : Option RequestSystem := do
  guard (s.portal.reqState = .idle ∧ s.portal.readyReg = true)
  return { s with
    fetches := s.fetches ++ beats 0 4
    portal := { s.portal with reqState := .headRequested } }

def receiveReqHeadTail (s : RequestSystem) : Option RequestSystem := do
  let p := s.portal
  guard (p.reqState = .headRequested ∨ p.reqState = .tailRequested)
  let (w0, w1) ← s.dataPipe.head?
  let s := { s with dataPipe := s.dataPipe.tail }
  if p.reqState = .headRequested then
    return { s with portal := { p with
      reqLimitReg := w0.value
      reqHeadReg := w1.value
      reqState := .tailRequested } }
  else
    let tail := if p.reqTailReg = 0 then w0.value else p.reqTailReg
    return { s with portal := { p with
      reqTailReg := tail
      reqState := if tail ≠ p.reqHeadReg then .requestMessage else .idle } }

def requestMessage (s : RequestSystem) : Option RequestSystem := do
  let p := s.portal
  guard (p.reqState = .requestMessage)
  let wrapped := p.reqHeadReg < p.reqTailReg
  let wordCount := if wrapped then p.reqLimitReg - p.reqTailReg else p.reqHeadReg - p.reqTailReg
  let tail := if wrapped then 4 else p.reqTailReg + (p.reqHeadReg - p.reqTailReg)
  return { s with
    fetches := s.fetches ++ beats p.reqTailReg.toNat wordCount.toNat
    portal := { p with
      reqTailReg := tail
      wordCountReg := wordCount.setWidth 16
      reqState := .messageHeaderRequested
      lap := if wrapped then p.lap + 1 else p.lap
      batchLap := p.lap } }

def demuxwords (s : RequestSystem) : Option RequestSystem := do
  let data ← s.dataPipe.head?
  let inFifo ← s.portal.inFifo.enq data
  return { s with dataPipe := s.dataPipe.tail, portal := { s.portal with inFifo } }

/-- The rule of `readMifo` that moves two words into the lanes. -/
def tofifos (s : RequestSystem) : Option RequestSystem := do
  let ((w0, w1), inFifo) ← s.portal.inFifo.deq
  let lanes ← s.portal.lanes.enq w0
  let lanes ← lanes.enq w1
  return { s with portal := { s.portal with inFifo, lanes } }

def receiveMessageHeader (s : RequestSystem) : Option (RequestSystem × List PortalEvent) := do
  let p := s.portal
  guard (p.reqState = .messageHeaderRequested)
  let (hdr, lanes) ← p.lanes.deq
  let messageWords := hdr.value.setWidth 16
  let reqState :=
    if hdr.value = 0 then
      if p.wordCountReg = 1 then .updateTail else .drain
    else if p.wordCountReg ≤ messageWords then .updateTail
    else if messageWords = 1 then .messageHeaderRequested
    else .messageRequested
  return ({ s with portal := { p with
    lanes
    methodIdReg := (hdr.value >>> 16).setWidth 16
    wordCountReg := p.wordCountReg - 1
    messageWordsReg := messageWords - 1
    reqState } }, [.parsed hdr p.batchLap])

def drain (s : RequestSystem) : Option RequestSystem := do
  let p := s.portal
  guard (p.reqState = .drain)
  let (_, lanes) ← p.lanes.deq
  return { s with portal := { p with
    lanes
    wordCountReg := p.wordCountReg - 1
    reqState := if p.wordCountReg = 1 then .updateTail else p.reqState } }

def receiveMessage (s : RequestSystem) : Option (RequestSystem × List PortalEvent) := do
  let p := s.portal
  guard (p.reqState = .messageRequested)
  let (data, lanes) ← p.lanes.deq
  return ({ s with portal := { p with
    lanes
    messageWordsReg := p.messageWordsReg - 1
    wordCountReg := p.wordCountReg - 1
    reqState := if p.messageWordsReg = 1 then .messageHeaderRequested
      else if p.wordCountReg ≤ 1 then .updateTail else p.reqState } },
    if p.methodIdReg ≠ 0xffff#16 then [.enq p.methodIdReg data.value] else [])

def updateTail (s : RequestSystem) : Option (RequestSystem × List PortalEvent) := do
  let p := s.portal
  guard (p.reqState = .updateTail)
  return ({ s with
    writes := s.writes ++ [p.reqTailReg]
    portal := { p with reqState := .waiting } }, [.published p.reqTailReg p.reqHeadReg])

def waiting (s : RequestSystem) : Option RequestSystem := do
  guard (s.portal.reqState = .waiting ∧ 0 < s.responses)
  return { s with responses := s.responses - 1, portal := { s.portal with reqState := .idle } }

/-- The read engine fetches the beats in order. -/
def fetch (s : RequestSystem) : Option RequestSystem := do
  let i ← s.fetches.head?
  return { s with fetches := s.fetches.tail, dataPipe := s.dataPipe ++ [(s.cells i, s.cells (i + 1))] }

/-- The write engine writes the tail index, extended to two words. -/
def commit (s : RequestSystem) : Option RequestSystem := do
  let tail ← s.writes.head?
  return { s with
    writes := s.writes.tail
    cells := Function.update (Function.update s.cells sharedRead ⟨tail, none⟩) 3 ⟨0, none⟩
    responses := s.responses + 1 }

inductive Action where
  | call (m : Message)
  | sender
  | setSglId
  | updateReqHeadTail
  | receiveReqHeadTail
  | requestMessage
  | demuxwords
  | tofifos
  | receiveMessageHeader
  | drain
  | receiveMessage
  | updateTail
  | waiting
  | fetch
  | commit
  deriving DecidableEq

def fire (reqsize : Nat) : Action → RequestSystem → Option (RequestSystem × List PortalEvent)
  | .call m, s => (s.call m).map (·, [])
  | .sender, s => (s.sendStep reqsize).map (·, s.sender.publishes.map .sent)
  | .setSglId, s => s.setSglId.map (·, [])
  | .updateReqHeadTail, s => s.updateReqHeadTail.map (·, [])
  | .receiveReqHeadTail, s => s.receiveReqHeadTail.map (·, [])
  | .requestMessage, s => s.requestMessage.map (·, [])
  | .demuxwords, s => s.demuxwords.map (·, [])
  | .tofifos, s => s.tofifos.map (·, [])
  | .receiveMessageHeader, s => s.receiveMessageHeader
  | .drain, s => s.drain.map (·, [])
  | .receiveMessage, s => s.receiveMessage
  | .updateTail, s => s.updateTail
  | .waiting, s => s.waiting.map (·, [])
  | .fetch, s => s.fetch.map (·, [])
  | .commit, s => s.commit.map (·, [])

/-- After `init_shared` and the reset of the hardware. The words that are not
initialised have no writer. -/
structure Init (c : SharedParam) (s : RequestSystem) : Prop where
  limit : s.mem.index sharedLimit = c.limit
  write : s.mem.index sharedWrite = sharedStart
  read : s.mem.index sharedRead = sharedStart
  first : s.mem sharedStart = 0
  lap : s.lap = 0
  sender : s.sender = .idle
  portal : s.portal = ⟨false, 0, 0, 0, 0, 0, 0, .idle, .empty, .empty, 0, 0⟩
  engines : s.fetches = [] ∧ s.dataPipe = [] ∧ s.writes = [] ∧ s.responses = 0

/-- The memory after `init_shared`, with zeros everywhere else. -/
def fresh (c : SharedParam) : RequestSystem where
  cells i := ⟨if i = sharedLimit then BitVec.ofNat 32 c.limit
    else if i = sharedWrite ∨ i = sharedRead then BitVec.ofNat 32 sharedStart else 0, none⟩
  lap := 0
  sender := .idle
  portal := ⟨false, 0, 0, 0, 0, 0, 0, .idle, .empty, .empty, 0, 0⟩
  fetches := []
  dataPipe := []
  writes := []
  responses := 0

def machine (c : SharedParam) : Machine RequestSystem Action PortalEvent := ⟨Init c, fire c.reqsize⟩

/-- The messages fit, and the index words go to `receiveReqHeadTail`. -/
def Scheduled (c : SharedParam) : Machine.Contract RequestSystem Action PortalEvent
  | _, _, .call m => c.Fits m
  | _, s, .demuxwords =>
    s.portal.reqState ≠ .headRequested ∧ s.portal.reqState ≠ .tailRequested
  | _, _, _ => True

instance (c : SharedParam) (trace : List PortalEvent) (s : RequestSystem) :
    (action : Action) → Decidable (Scheduled c trace s action)
  | .call m => inferInstanceAs (Decidable (c.Fits m))
  | .demuxwords => inferInstanceAs (Decidable (_ ∧ _))
  | .sender | .fetch => .isTrue trivial
  | .setSglId | .updateReqHeadTail | .receiveReqHeadTail | .requestMessage | .tofifos => .isTrue trivial
  | .receiveMessageHeader | .drain | .receiveMessage | .updateTail | .waiting | .commit => .isTrue trivial

end RequestSystem

/-- The messages that were published. -/
def sentMessages (trace : List PortalEvent) : List Message :=
  trace.filterMap fun
    | .sent m => some m
    | _ => none

/-- The words that the portal enqueued, with their methods. -/
def enqs (trace : List PortalEvent) : List (BitVec 16 × BitVec 32) :=
  trace.filterMap fun
    | .enq method data => some (method, data)
    | _ => none

/-- The words that messages bring to their methods. -/
def deliveries (msgs : List Message) : List (BitVec 16 × BitVec 32) :=
  msgs.flatMap fun m => m.payload.map fun x => (m.num, x)

theorem sentMessages_append (t t' : List PortalEvent) :
    sentMessages (t ++ t') = sentMessages t ++ sentMessages t' := List.filterMap_append

theorem enqs_append (t t' : List PortalEvent) : enqs (t ++ t') = enqs t ++ enqs t' :=
  List.filterMap_append

theorem deliveries_append (msgs msgs' : List Message) :
    deliveries (msgs ++ msgs') = deliveries msgs ++ deliveries msgs' := List.flatMap_append

end Connectal.Shared
