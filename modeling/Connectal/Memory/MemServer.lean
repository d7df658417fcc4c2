import Connectal.Memory.MMUCalm
import Connectal.Memory.RequestPath
import Connectal.Rules.Pairing
import Mathlib.Data.Nat.Log

/-! The memory server: internal servers, each with its clients, share translation
units. An address server in front of each unit remembers with a queue of tokens
which internal server has to get the next answer. The software may also ask for
single translations; these go to the unit past its address server. One direction,
reading or writing, is modelled at a time; the other direction uses the other port
of the units. -/
namespace Connectal

open Rules

/-- What `mkMemReadInternal` and `mkMemWriteInternal` do differently on their
request side. -/
structure Direction where
  port : Fin 2
  mmuOutOfRange : DmaErrorType
  sglIdOutOfRange : DmaErrorType
  deriving DecidableEq, Repr

def Direction.read : Direction := ⟨0, .mmuOutOfRangeR, .sglIdOutOfRangeR⟩

def Direction.write : Direction := ⟨1, .mmuOutOfRangeW, .sglIdOutOfRangeW⟩

namespace RequestPath

variable {numClients numTags tsz addrWidth : Nat}

/-- What happens on the request side of a server apart from `loadClient` and
`checkMmuResp`. The rest of the server and the memory take physical requests, give
tags back and take completed tags. -/
inductive Service (tsz : Nat) where
  | takeReq
  | returnTag (tag : BitVec tsz)
  | complete
  | dmaError
  | tagRule (r : TagGen.Rule)
  deriving DecidableEq, Repr

inductive Event (numClients tsz addrWidth : Nat) where
  | refused (l : LRec numClients) (error : DmaErrorType)
  | renamed (r : RRec numClients addrWidth)
  | taken (r : RRec numClients addrWidth)
  | reported (error : DmaError)
  | tag (e : TagGen.Event tsz)
  deriving DecidableEq, Repr

def serve : Service tsz → RequestPath numClients numTags tsz addrWidth →
    Option (RequestPath numClients numTags tsz addrWidth × List (Event numClients tsz addrWidth))
  | .takeReq, s => s.reqFifo.deq.map fun r => ({ s with reqFifo := r.2 }, [.taken r.1])
  | .returnTag tag, s => (s.tagGen.returnTag tag).map fun tagGen =>
    ({ s with tagGen }, [.tag ⟨.returned, tag⟩])
  | .complete, s => s.tagGen.complete.map fun r =>
    ({ s with tagGen := r.2 }, [.tag ⟨.completed, r.1⟩])
  | .dmaError, s => s.dmaError.map fun r => (r.2, [.reported r.1])
  | .tagRule r, s => (TagGen.runRule r s.tagGen).map fun g =>
    ({ s with tagGen := g.1 }, g.2.map .tag)

end RequestPath

/-- Whether an action of a translation unit is a request to a port, or takes an
answer from it. -/
def MMU.Action.uses (port : Fin 2) : MMU.Action → Bool
  | .put i _ | .get i => i = port
  | _ => false

/-- `mkMMUAddrServer`: tokens of the servers whose requests are under way, oldest
first, and the server whose turn it is. -/
structure MMUAddrServer (numServers : Nat) where
  tokFifo : Fifo (Fin numServers) 9
  arb : BitVec (Nat.clog 2 numServers)

namespace MMUAddrServer

variable {numServers addrWidth : Nat}

def powerUp : MMUAddrServer numServers := ⟨Fifo.empty, 0⟩

def incArb (a : MMUAddrServer numServers) : MMUAddrServer numServers := { a with arb := a.arb + 1 }

/-- Server `i` sends a request to the unit when it is its turn. -/
def put (a : MMUAddrServer numServers) (i : Fin numServers) (mmu : MMU addrWidth) (port : Fin 2)
    (req : ReqTup) : Option (MMUAddrServer numServers × MMU addrWidth) := do
  guard (a.arb = BitVec.ofNat _ i)
  let tokFifo ← a.tokFifo.enq i
  let mmu ← mmu.put port req
  return ({ a with tokFifo }, mmu)

/-- Server `i` gets the next answer of the unit if its token comes first. -/
def get (a : MMUAddrServer numServers) (i : Fin numServers) (mmu : MMU addrWidth) (port : Fin 2) :
    Option (BitVec addrWidth × MMUAddrServer numServers × MMU addrWidth) := do
  let (first, tokFifo) ← a.tokFifo.deq
  guard (first = i)
  let (rv, mmu) ← mmu.get port
  return (rv, { a with tokFifo }, mmu)

end MMUAddrServer

/-- The translation unit that a pointer or a scatter list number names. -/
def mmuOf (numMMUs : Nat) (sglId : BitVec 32) : Option (Fin numMMUs) :=
  if h : (sglId.extractLsb' 16 16).toNat < numMMUs then some ⟨_, h⟩ else none

/-- Request sides of the internal servers, address servers, translation units, and
the pointers of the translations that the software has asked for. -/
structure MemServer (nMasters numClients numMMUs numTags tsz addrWidth : Nat) where
  servers : Fin nMasters → RequestPath numClients numTags tsz addrWidth
  mmuServers : Fin numMMUs → MMUAddrServer nMasters
  mmus : Fin numMMUs → MMU addrWidth
  addrReqFifo : Fifo (BitVec 32) 2

namespace MemServer

variable {nMasters numClients numMMUs numTags tsz addrWidth : Nat}

/-- A request at a translation unit, with the translation that the tables of the
unit gave when it was sent. -/
inductive Pending (nMasters numClients addrWidth : Nat) where
  | request (i : Fin nMasters) (l : LRec numClients) (outcome : MMU.Outcome addrWidth)
  | trans (pointer offset : BitVec 32) (outcome : MMU.Outcome addrWidth)

inductive Event (nMasters numClients numMMUs tsz addrWidth : Nat) where
  | sent (x : Pending nMasters numClients addrWidth)
  | server (i : Fin nMasters) (e : RequestPath.Event numClients tsz addrWidth)
  | mmu (j : Fin numMMUs) (e : MMU.Event addrWidth)
  | addrResponse (physAddr : BitVec addrWidth)

inductive Action (nMasters numClients numMMUs tsz : Nat) where
  | loadClient (i : Fin nMasters) (client : Fin numClients) (req : MemRequest)
  | checkMmuResp (i : Fin nMasters)
  | service (i : Fin nMasters) (a : RequestPath.Service tsz)
  | incArb (j : Fin numMMUs)
  | mmu (j : Fin numMMUs) (a : MMU.Action)
  | addrTrans (pointer offset : BitVec 32)
  | mmuEntry
  deriving DecidableEq, Repr

variable (dir : Direction) (s : MemServer nMasters numClients numMMUs numTags tsz addrWidth)

def setServer (i : Fin nMasters) (path : RequestPath numClients numTags tsz addrWidth) :
    MemServer nMasters numClients numMMUs numTags tsz addrWidth :=
  { s with servers := Function.update s.servers i path }

def setUnit (j : Fin numMMUs) (a : MMUAddrServer nMasters) (mmu : MMU addrWidth) :
    MemServer nMasters numClients numMMUs numTags tsz addrWidth :=
  { s with
    mmuServers := Function.update s.mmuServers j a
    mmus := Function.update s.mmus j mmu }

/-- A client's request is queued and sent to its unit, or refused. -/
def loadClient (i : Fin nMasters) (client : Fin numClients) (req : MemRequest) :
    Option (MemServer nMasters numClients numMMUs numTags tsz addrWidth ×
      List (Event nMasters numClients numMMUs tsz addrWidth)) := do
  let (path, refused) ← (s.servers i).loadClient dir.mmuOutOfRange dir.sglIdOutOfRange numMMUs client req
  match refused with
  | some e => return (s.setServer i path, [.server i (.refused ⟨req, client⟩ e)])
  | none =>
    let j ← mmuOf numMMUs req.sglId
    let (a, mmu) ← (s.mmuServers j).put i (s.mmus j) dir.port req.reqTup
    let outcome := (s.mmus j).tables.translate addrWidth req.reqTup
    return ((s.setServer i path).setUnit j a mmu,
      [.sent (.request i ⟨req, client⟩ outcome), .mmu j (.requested dir.port req.reqTup)])

/-- Pair the oldest request of a server with the next answer of its unit. -/
def checkMmuResp (i : Fin nMasters) :
    Option (MemServer nMasters numClients numMMUs numTags tsz addrWidth ×
      List (Event nMasters numClients numMMUs tsz addrWidth)) := do
  let l ← (s.servers i).lreqFifo.items.head?
  let j ← mmuOf numMMUs l.req.sglId
  let (physAddr, a, mmu) ← (s.mmuServers j).get i (s.mmus j) dir.port
  let (r, path) ← (s.servers i).checkMmuResp physAddr
  return ((s.setServer i path).setUnit j a mmu,
    [.server i (.renamed r), .server i (.tag ⟨.given, (s.servers i).tagGen.headPtr⟩),
      .mmu j (.answered dir.port physAddr)])

/-- The software asks for a translation. The request does not go through the
address server. -/
def addrTrans (pointer offset : BitVec 32) :
    Option (MemServer nMasters numClients numMMUs numTags tsz addrWidth ×
      List (Event nMasters numClients numMMUs tsz addrWidth)) := do
  let addrReqFifo ← s.addrReqFifo.enq pointer
  let j ← mmuOf numMMUs pointer
  let req : ReqTup := ⟨pointer.setWidth 5, offset.setWidth 44⟩
  let mmu ← (s.mmus j).put dir.port req
  let outcome := (s.mmus j).tables.translate addrWidth req
  return ({ s with addrReqFifo }.setUnit j (s.mmuServers j) mmu,
    [.sent (.trans pointer offset outcome), .mmu j (.requested dir.port req)])

/-- Answer the oldest question of the software with the next answer of its unit. -/
def mmuEntry : Option (MemServer nMasters numClients numMMUs numTags tsz addrWidth ×
    List (Event nMasters numClients numMMUs tsz addrWidth)) := do
  let (first, addrReqFifo) ← s.addrReqFifo.deq
  let j ← mmuOf numMMUs first
  let (physAddr, mmu) ← (s.mmus j).get dir.port
  return ({ s with addrReqFifo }.setUnit j (s.mmuServers j) mmu,
    [.addrResponse physAddr, .mmu j (.answered dir.port physAddr)])

/-- The effect of every action. Nobody else uses the units' ports of this
direction. -/
def fire : Action nMasters numClients numMMUs tsz →
    MemServer nMasters numClients numMMUs numTags tsz addrWidth →
    Option (MemServer nMasters numClients numMMUs numTags tsz addrWidth ×
      List (Event nMasters numClients numMMUs tsz addrWidth))
  | .loadClient i client req, s => s.loadClient dir i client req
  | .checkMmuResp i, s => s.checkMmuResp dir i
  | .service i a, s => (RequestPath.serve a (s.servers i)).map fun r =>
    (s.setServer i r.1, r.2.map (.server i))
  | .incArb j, s => some (s.setUnit j (s.mmuServers j).incArb (s.mmus j), [])
  | .mmu j a, s =>
    if a.uses dir.port then none
    else (MMU.fire (BitVec.ofNat 32 j) a (s.mmus j)).map fun r =>
      (s.setUnit j (s.mmuServers j) r.1, r.2.map (.mmu j))
  | .addrTrans pointer offset, s => s.addrTrans dir pointer offset
  | .mmuEntry, s => s.mmuEntry dir

/-- Reset state. -/
def powerUp (tagMem : Fin nMasters → BitVec tsz → Bool) (mmus : Fin numMMUs → MMU addrWidth) :
    MemServer nMasters numClients numMMUs numTags tsz addrWidth where
  servers i := RequestPath.powerUp (tagMem i)
  mmuServers _ := MMUAddrServer.powerUp
  mmus := mmus
  addrReqFifo := Fifo.empty

/-- One direction of the memory server, from any power-up contents of its
memories. -/
def machine (nMasters numClients numMMUs numTags tsz addrWidth : Nat) (dir : Direction) :
    Machine (MemServer nMasters numClients numMMUs numTags tsz addrWidth)
      (Action nMasters numClients numMMUs tsz) (Event nMasters numClients numMMUs tsz addrWidth) where
  init s := ∃ tagMem mmus, s = powerUp tagMem mmus ∧
    ∀ j : Fin numMMUs, (MMU.machine addrWidth (BitVec.ofNat 32 j)).init (mmus j)
  fire := fire dir

end MemServer
end Connectal
