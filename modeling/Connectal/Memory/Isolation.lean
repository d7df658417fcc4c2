import Connectal.Memory.MemServer
import Connectal.Memory.TagLife
import Connectal.Rules.Bank

/-! Which answer goes to which request in the memory server. A request waits with
its origin, which is an internal server or the software, and at its translation
unit. As long as nothing that will be answered stands behind something that will
not, and the two kinds of origin do not meet at a unit, every answer goes to the
request it belongs to. -/
namespace Connectal

open Rules Pairing

namespace MemServer

variable {nMasters numClients numMMUs numTags tsz addrWidth : Nat} {addr : BitVec addrWidth}

namespace Pending

/-- The queue in which a request waits: that of an internal server, or that of the
software's questions. -/
def source : Pending nMasters numClients addrWidth → Option (Fin nMasters)
  | .request i _ _ => some i
  | .trans _ _ _ => none

def label : Pending nMasters numClients addrWidth → Option (LRec numClients)
  | .request _ l _ => some l
  | .trans _ _ _ => none

def sglId : Pending nMasters numClients addrWidth → BitVec 32
  | .request _ l _ => l.req.sglId
  | .trans pointer _ _ => pointer

def outcome : Pending nMasters numClients addrWidth → MMU.Outcome addrWidth
  | .request _ _ outcome => outcome
  | .trans _ _ outcome => outcome

/-- The answer that a request will get. -/
def answer (x : Pending nMasters numClients addrWidth) : Option (BitVec addrWidth) :=
  match x.outcome with
  | .ok addr => some addr
  | .error _ => none

/-- The translation unit at which a request waits. -/
def mmu (numMMUs : Nat) (x : Pending nMasters numClients addrWidth) : Option (Fin numMMUs) :=
  mmuOf numMMUs x.sglId

theorem outcome_of_answer {x : Pending nMasters numClients addrWidth}
    (h : x.answer = some addr) : x.outcome = .ok addr := by
  unfold answer at h
  split at h
  · next hOk => rw [hOk, Option.some.inj h]
  · cases h

theorem filterMap_answer (items : List (Pending nMasters numClients addrWidth)) :
    items.filterMap answer = MMU.oks (items.map outcome) := by
  rw [MMU.oks, List.filterMap_map]
  rfl

end Pending

section Traces

variable (trace : List (Event nMasters numClients numMMUs tsz addrWidth))

/-- Requests that were sent to a translation unit and whose answer has not been
taken. The oldest request of an origin goes when the origin takes an answer. -/
def pendingAfter (items : List (Pending nMasters numClients addrWidth)) :
    Event nMasters numClients numMMUs tsz addrWidth → List (Pending nMasters numClients addrWidth)
  | .sent x => items ++ [x]
  | .server i (.renamed _) => dropOldest Pending.source (some i) items
  | .addrResponse _ => dropOldest Pending.source none items
  | _ => items

def pending : List (Pending nMasters numClients addrWidth) := trace.foldl pendingAfter []

/-- Everything that was sent to a translation unit. -/
def sents : List (Pending nMasters numClients addrWidth) :=
  trace.filterMap fun | .sent x => some x | _ => none

def renamed (i : Fin nMasters) : List (RRec numClients addrWidth) :=
  trace.filterMap fun | .server k (.renamed r) => if k = i then some r else none | _ => none

/-- The physical requests that the bus has taken from a server. -/
def taken (i : Fin nMasters) : List (RRec numClients addrWidth) :=
  trace.filterMap fun | .server k (.taken r) => if k = i then some r else none | _ => none

def addrResponses : List (BitVec addrWidth) :=
  trace.filterMap fun | .addrResponse physAddr => some physAddr | _ => none

/-- The history of the tag generator of one server. -/
def tagEvents (i : Fin nMasters) : List (TagGen.Event tsz) :=
  trace.filterMap fun | .server k (.tag e) => if k = i then some e else none | _ => none

/-- What an origin has got: for a server its requests with the addresses they were
given, for the software the addresses alone. -/
def settled : Option (Fin nMasters) → List (Option (LRec numClients) × BitVec addrWidth)
  | some i => (renamed trace i).map fun r => (some ⟨r.req, r.client⟩, r.pa)
  | none => (addrResponses trace).map fun physAddr => (none, physAddr)

end Traces

section Append

variable (first second : List (Event nMasters numClients numMMUs tsz addrWidth))

theorem pending_append : pending (first ++ second) = second.foldl pendingAfter (pending first) := by
  simp [pending]

@[simp] theorem sents_append : sents (first ++ second) = sents first ++ sents second := by
  simp [sents]

@[simp] theorem renamed_append (i : Fin nMasters) :
    renamed (first ++ second) i = renamed first i ++ renamed second i := by
  simp [renamed]

@[simp] theorem taken_append (i : Fin nMasters) :
    taken (first ++ second) i = taken first i ++ taken second i := by
  simp [taken]

@[simp] theorem addrResponses_append :
    addrResponses (first ++ second) = addrResponses first ++ addrResponses second := by
  simp [addrResponses]

@[simp] theorem tagEvents_append (i : Fin nMasters) :
    tagEvents (first ++ second) i = tagEvents first i ++ tagEvents second i := by
  simp [tagEvents]

@[simp] theorem settled_append (src : Option (Fin nMasters)) :
    settled (first ++ second) src = settled first src ++ settled second src := by
  cases src <;> simp [settled]

end Append

/-- What the surroundings see to in any case: tags that come back are out, and the
tables of a scatter list are not changed while a request has something to look up
in them. -/
def Orderly (dir : Direction) :
    Machine.Contract (MemServer nMasters numClients numMMUs numTags tsz addrWidth)
      (Action nMasters numClients numMMUs tsz) (Event nMasters numClients numMMUs tsz addrWidth)
  | trace, s, .service i (.returnTag tag) =>
    TagGen.ReturnsOutstanding (tagEvents trace i) (s.servers i).tagGen (.returnTag tag)
  | _, s, .mmu j a => MMU.Calm dir.port (s.mmus j) a
  | _, _, _ => True

/-- No request that will not be answered waits in the given queue or at the given
unit. -/
def Unobstructed (items : List (Pending nMasters numClients addrWidth)) (src : Option (Fin nMasters))
    (j : Fin numMMUs) : Prop :=
  ∀ x ∈ items, x.answer = none → x.source ≠ src ∧ x.mmu numMMUs ≠ some j

/-- No request of the other kind of origin waits at the given unit. -/
def Unmixed (items : List (Pending nMasters numClients addrWidth)) (src : Option (Fin nMasters))
    (j : Fin numMMUs) : Prop :=
  ∀ x ∈ items, x.mmu numMMUs = some j → x.source.isSome = src.isSome

/-- A request that can be translated is sent only when nothing obstructs it, and
any request only when requests of the other kind have left its unit. -/
def Separated (dir : Direction) :
    Machine.Contract (MemServer nMasters numClients numMMUs numTags tsz addrWidth)
      (Action nMasters numClients numMMUs tsz) (Event nMasters numClients numMMUs tsz addrWidth)
  | trace, s, .loadClient i _ req => req.sglidOutofrange = false → ∀ j ∈ mmuOf numMMUs req.sglId,
      Unmixed (pending trace) (some i) j ∧
        (((s.mmus j).tables.translate addrWidth req.reqTup).isOk = true →
          Unobstructed (pending trace) (some i) j)
  | trace, s, .addrTrans pointer offset => ∀ j ∈ mmuOf numMMUs pointer,
      Unmixed (pending trace) none j ∧
        (((s.mmus j).tables.translate addrWidth ⟨pointer.setWidth 5, offset.setWidth 44⟩).isOk = true →
          Unobstructed (pending trace) none j)
  | trace, s, a => Orderly dir trace s a

/-- No requests are sent; those that are under way are brought to their end. -/
def Draining (dir : Direction) :
    Machine.Contract (MemServer nMasters numClients numMMUs numTags tsz addrWidth)
      (Action nMasters numClients numMMUs tsz) (Event nMasters numClients numMMUs tsz addrWidth)
  | _, _, .loadClient _ _ _ => False
  | _, _, .addrTrans _ _ => False
  | trace, s, a => Orderly dir trace s a

/-- Queues, units and history in terms of the requests that are pending. -/
structure Inv (dir : Direction) (trace : List (Event nMasters numClients numMMUs tsz addrWidth))
    (s : MemServer nMasters numClients numMMUs numTags tsz addrWidth)
    (P : Fin numMMUs → MMU.Pipe addrWidth) : Prop where
  lreq : ∀ i, (s.servers i).lreqFifo.items.map some =
    (having Pending.source (some i) (pending trace)).map Pending.label
  tok : ∀ j, (s.mmuServers j).tokFifo.items =
    (having (Pending.mmu numMMUs) (some j) (pending trace)).filterMap Pending.source
  asks : s.addrReqFifo.items = (having Pending.source none (pending trace)).map Pending.sglId
  abstracts : ∀ j, MMU.Abstracts (s.mmus j) (P j)
  due : ∀ j, (P j).due dir.port =
    (having (Pending.mmu numMMUs) (some j) (pending trace)).filterMap Pending.answer
  placed : ∀ x ∈ pending trace, (x.mmu numMMUs).isSome
  clear : Clear Pending.source (Pending.mmu numMMUs) Pending.answer (pending trace)
  unmixed : ∀ x ∈ pending trace, ∀ y ∈ pending trace, x.mmu numMMUs = y.mmu numMMUs →
    x.source.isSome = y.source.isSome
  log : ∀ src, (having Pending.source src (sents trace)).map (fun x => (x.label, x.outcome)) =
    (settled trace src).map (fun r => (r.1, .ok r.2)) ++
      (having Pending.source src (pending trace)).map fun x => (x.label, x.outcome)
  bus : ∀ i, renamed trace i = taken trace i ++ (s.servers i).reqFifo.items

variable {dir : Direction} {trace : List (Event nMasters numClients numMMUs tsz addrWidth)}
  {s s' : MemServer nMasters numClients numMMUs numTags tsz addrWidth}
  {P P' : Fin numMMUs → MMU.Pipe addrWidth} {x : Pending nMasters numClients addrWidth}

theorem powerUp_inv (tagMem : Fin nMasters → BitVec tsz → Bool) {mmus : Fin numMMUs → MMU addrWidth}
    (hMmus : ∀ j : Fin numMMUs, (MMU.machine addrWidth (BitVec.ofNat 32 j)).init (mmus j)) :
    ∃ P, Inv dir [] (powerUp tagMem mmus :
      MemServer nMasters numClients numMMUs numTags tsz addrWidth) P := by
  choose tagMem' regMem pageMem hInit using hMmus
  refine ⟨fun j => ⟨⟨regMem j, pageMem j⟩, fun _ => MMU.Flight.empty, []⟩, ?_⟩
  constructor
  case abstracts =>
    intro j
    show MMU.Abstracts (mmus j) _
    rw [hInit j]
    exact MMU.powerUp_abstracts _ _ _
  case due =>
    intro j
    rfl
  case clear => exact List.Pairwise.nil
  all_goals simp [powerUp, RequestPath.powerUp, MMUAddrServer.powerUp, pending, sents, renamed, taken]
  case log =>
    intro src
    cases src <;> rfl

variable {events : List (Event nMasters numClients numMMUs tsz addrWidth)}

section Exchange

variable {j : Fin numMMUs} {a : MMUAddrServer nMasters} {mmu : MMU addrWidth} {Q : MMU.Pipe addrWidth}
  {servers : Fin nMasters → RequestPath numClients numTags tsz addrWidth} {asks : Fifo (BitVec 32) 2}

theorem Inv.send (h : Inv dir trace s P) (hMmu : x.mmu numMMUs = some j) (e : MMU.Event addrWidth)
    (hLreq : ∀ i, (servers i).lreqFifo.items.map some =
      (s.servers i).lreqFifo.items.map some ++ (having Pending.source (some i) [x]).map Pending.label)
    (hTok : a.tokFifo.items = (s.mmuServers j).tokFifo.items ++ [x].filterMap Pending.source)
    (hAsks : asks.items = s.addrReqFifo.items ++ (having Pending.source none [x]).map Pending.sglId)
    (hAbs : MMU.Abstracts mmu Q) (hDue : Q.due dir.port = (P j).due dir.port ++ MMU.oks [x.outcome])
    (hBus : ∀ i, (servers i).reqFifo = (s.servers i).reqFifo)
    (hUnmixed : Unmixed (pending trace) x.source j)
    (hClear : x.outcome.isOk = true → Unobstructed (pending trace) x.source j) :
    Inv dir (trace ++ [.sent x, .mmu j e]) ({ s with servers, addrReqFifo := asks }.setUnit j a mmu)
      (Function.update P j Q) := by
  have hPending : pending (trace ++ [.sent x, .mmu j e]) = pending trace ++ [x] := by
    rw [pending_append]
    rfl
  have hSents : sents (trace ++ [.sent x, .mmu j e]) = sents trace ++ [x] := by
    rw [sents_append]
    rfl
  have hSettled : ∀ src, settled (trace ++ [.sent x, .mmu j e]) src = settled trace src := by
    intro src
    rw [settled_append]
    cases src <;> exact List.append_nil _
  have hUnit : ∀ k, having (Pending.mmu numMMUs) (some k) [x] = if j = k then [x] else [] := by
    intro k
    simp [hMmu]
  constructor
  · intro i
    rw [hPending, having_append, List.map_append, ← h.lreq]
    exact hLreq i
  · intro k
    rw [hPending, having_append, List.filterMap_append, ← h.tok, hUnit, apply_ite (List.filterMap _)]
    exact append_update (fun u : MMUAddrServer nMasters => u.tokFifo.items) hTok k
  · rw [hPending, having_append, List.map_append, ← h.asks]
    exact hAsks
  · exact update_rel h.abstracts hAbs
  · intro k
    rw [hPending, having_append, List.filterMap_append, ← h.due, hUnit, apply_ite (List.filterMap _),
      Pending.filterMap_answer]
    exact append_update (fun p : MMU.Pipe addrWidth => p.due dir.port) hDue k
  · intro y hy
    rw [hPending, List.mem_append, List.mem_singleton] at hy
    rcases hy with hy | rfl
    · exact h.placed y hy
    · simp [hMmu]
  · rw [hPending]
    refine h.clear.snoc fun hAnswer => ?_
    rw [hMmu]
    refine hClear ?_
    unfold Pending.answer at hAnswer
    cases hOutcome : x.outcome with
    | ok addr => rfl
    | error e => simp [hOutcome] at hAnswer
  · intro y hy z hz hSame
    rw [hPending, List.mem_append, List.mem_singleton] at hy hz
    rcases hy with hy | rfl <;> rcases hz with hz | rfl
    · exact h.unmixed y hy z hz hSame
    · exact hUnmixed y hy (hSame.trans hMmu)
    · exact (hUnmixed z hz (hSame.symm.trans hMmu)).symm
    · rfl
  · intro src
    rw [hSents, hSettled, hPending, having_append, having_append, List.map_append, List.map_append,
      h.log, List.append_assoc]
  · intro i
    rw [renamed_append, taken_append]
    show _ = _ ++ (servers i).reqFifo.items
    rw [hBus]
    simpa [renamed, taken] using h.bus i

variable {older newer : List (Pending nMasters numClients addrWidth)}

/-- The oldest request of an origin, which is also the oldest at its unit, gets the
answer that the unit owes it. -/
theorem Inv.settle (h : Inv dir trace s P) (hPending : pending trace = older ++ x :: newer)
    (hSource : ∀ y ∈ older, y.source ≠ x.source) (hj : x.mmu numMMUs = some j)
    (hMmu : ∀ y ∈ older, y.mmu numMMUs ≠ x.mmu numMMUs) (hAnswer : x.answer = some addr)
    (hAfter : events.foldl pendingAfter (pending trace) =
      dropOldest Pending.source x.source (pending trace)) (hSents : sents events = [])
    (hSettled : ∀ src, settled events src = if x.source = src then [(x.label, addr)] else [])
    (hLreq : ∀ i, (s.servers i).lreqFifo.items.map some =
      (having Pending.source (some i) [x]).map Pending.label ++ (servers i).lreqFifo.items.map some)
    (hTok : (s.mmuServers j).tokFifo.items = [x].filterMap Pending.source ++ a.tokFifo.items)
    (hAsks : s.addrReqFifo.items = (having Pending.source none [x]).map Pending.sglId ++ asks.items)
    (hAbs : MMU.Abstracts mmu Q) (hDue : (P j).due dir.port = addr :: Q.due dir.port)
    (hTaken : ∀ i, taken events i = [])
    (hBus : ∀ i, (servers i).reqFifo.items = (s.servers i).reqFifo.items ++ renamed events i) :
    Inv dir (trace ++ events) ({ s with servers, addrReqFifo := asks }.setUnit j a mmu) (Function.update P j Q) := by
  have hLeft : pending (trace ++ events) = older ++ newer := by
    rw [pending_append, hAfter, hPending, dropOldest_eq hSource]
  have hSublist : (pending (trace ++ events)).Sublist (pending trace) := by
    rw [pending_append, hAfter]
    exact dropOldest_sublist
  have hBySource : ∀ src, having Pending.source src (pending trace) =
      having Pending.source src [x] ++ having Pending.source src (pending (trace ++ events)) := by
    intro src
    rw [hPending, hLeft, having_oldest hSource]
  have hByMmu : ∀ k, having (Pending.mmu numMMUs) (some k) (pending trace) =
      (if j = k then [x] else []) ++ having (Pending.mmu numMMUs) (some k) (pending (trace ++ events)) := by
    intro k
    rw [hPending, hLeft, having_oldest hMmu]
    simp [hj]
  constructor
  · intro i
    have hAll := h.lreq i
    rw [hLreq, hBySource, List.map_append] at hAll
    exact List.append_cancel_left hAll
  · intro k
    have hAll := h.tok k
    rw [update_append (fun u : MMUAddrServer nMasters => u.tokFifo.items) hTok k, hByMmu, List.filterMap_append,
      apply_ite (List.filterMap _)] at hAll
    exact List.append_cancel_left hAll
  · have hAll := h.asks
    rw [hAsks, hBySource, List.map_append] at hAll
    exact List.append_cancel_left hAll
  · exact update_rel h.abstracts hAbs
  · intro k
    have hAll := h.due k
    have hOwed : (P j).due dir.port = [x].filterMap Pending.answer ++ Q.due dir.port := by
      rw [hDue, List.filterMap_cons_some hAnswer]
      rfl
    rw [update_append (fun p : MMU.Pipe addrWidth => p.due dir.port) hOwed k, hByMmu, List.filterMap_append,
      apply_ite (List.filterMap _)] at hAll
    exact List.append_cancel_left hAll
  · exact fun y hy => h.placed y (hSublist.subset hy)
  · exact h.clear.sublist hSublist
  · exact fun y hy z hz => h.unmixed y (hSublist.subset hy) z (hSublist.subset hz)
  · intro src
    rw [sents_append, hSents, List.append_nil, h.log, settled_append, hSettled, hBySource]
    by_cases hSrc : x.source = src
    · simp [hSrc, Pending.outcome_of_answer hAnswer]
    · simp [hSrc]
  · intro i
    rw [renamed_append, taken_append, hTaken, List.append_nil, h.bus i, List.append_assoc, ← hBus]
    rfl

end Exchange

/-- Events that neither send nor settle. -/
def Silent (events : List (Event nMasters numClients numMMUs tsz addrWidth)) : Prop :=
  (∀ items, events.foldl pendingAfter items = items) ∧ sents events = [] ∧
    ∀ src, settled events src = []

theorem Inv.quiet (h : Inv dir trace s P) (hSilent : Silent events)
    (hLreq : ∀ i, (s'.servers i).lreqFifo = (s.servers i).lreqFifo)
    (hTok : ∀ k, (s'.mmuServers k).tokFifo = (s.mmuServers k).tokFifo)
    (hAsks : s'.addrReqFifo = s.addrReqFifo) (hAbs : ∀ k, MMU.Abstracts (s'.mmus k) (P' k))
    (hDue : ∀ k, (P' k).due dir.port = (P k).due dir.port)
    (hBus : ∀ i, (s.servers i).reqFifo.items = taken events i ++ (s'.servers i).reqFifo.items) :
    Inv dir (trace ++ events) s' P' := by
  obtain ⟨hPending, hSents, hSettled⟩ := hSilent
  have hSame : pending (trace ++ events) = pending trace := by rw [pending_append, hPending]
  have hRenamed : ∀ i, renamed events i = [] := by
    intro i
    simpa [settled] using hSettled (some i)
  constructor
  · intro i
    rw [hLreq, h.lreq, hSame]
  · intro k
    rw [hTok, h.tok, hSame]
  · rw [hAsks, h.asks, hSame]
  · exact hAbs
  · intro k
    rw [hDue, h.due, hSame]
  · rw [hSame]
    exact h.placed
  · rw [hSame]
    exact h.clear
  · rw [hSame]
    exact h.unmixed
  · intro src
    rw [sents_append, hSents, List.append_nil, settled_append, hSettled, List.append_nil, hSame, h.log]
  · intro i
    rw [renamed_append, hRenamed, List.append_nil, taken_append, h.bus, hBus, List.append_assoc]

section Steps

variable {events : List (Event nMasters numClients numMMUs tsz addrWidth)} {i : Fin nMasters}

theorem loadClient_cases {client : Fin numClients} {req : MemRequest}
    (hs : s.loadClient dir i client req = some (s', events)) :
    (∃ e q, s' = s.setServer i { s.servers i with dmaErrorFifo := q } ∧
      events = [.server i (.refused ⟨req, client⟩ e)]) ∨
    ∃ (j : Fin numMMUs) (q : Fifo (LRec numClients) 9) (a : MMUAddrServer nMasters)
      (mmu : MMU addrWidth), req.sglidOutofrange = false ∧ mmuOf numMMUs req.sglId = some j ∧
      q.items = (s.servers i).lreqFifo.items ++ [⟨req, client⟩] ∧
      a.tokFifo.items = (s.mmuServers j).tokFifo.items ++ [i] ∧
      (s.mmus j).put dir.port req.reqTup = some mmu ∧
      s' = (s.setServer i { s.servers i with lreqFifo := q }).setUnit j a mmu ∧
      events = [.sent (.request i ⟨req, client⟩ ((s.mmus j).tables.translate addrWidth req.reqTup)),
        .mmu j (.requested dir.port req.reqTup)] := by
  simp only [loadClient, firing] at hs
  obtain ⟨path, refused, hPath, hs⟩ := hs
  rcases RequestPath.loadClient_cases hPath with ⟨e, q, rfl, rfl⟩ | ⟨rfl, q, hq, rfl⟩
  · simp only [firing] at hs
    exact .inl ⟨e, q, hs.1.symm, hs.2.symm⟩
  · have hRange := RequestPath.sglId_inRange hPath
    simp only [MMUAddrServer.put, firing] at hs
    obtain ⟨j, hj, a, mmu, ⟨-, tok, ⟨-, hTok⟩, _, hPut, rfl, rfl⟩, rfl, rfl⟩ := hs
    exact .inr ⟨j, q, _, _, hRange, hj, hq, hTok, hPut, rfl, rfl⟩

theorem checkMmuResp_cases (hs : s.checkMmuResp dir i = some (s', events)) :
    ∃ (l : LRec numClients) (rest : Fifo (LRec numClients) 9) (j : Fin numMMUs)
      (a : MMUAddrServer nMasters) (addr : BitVec addrWidth) (mmu : MMU addrWidth) (tag : BitVec tsz)
      (tagGen : TagGen numTags tsz) (q : Fifo (RRec numClients addrWidth) 2),
      (s.servers i).lreqFifo.items = l :: rest.items ∧ mmuOf numMMUs l.req.sglId = some j ∧
      (s.mmuServers j).tokFifo.items = i :: a.tokFifo.items ∧
      (s.mmus j).get dir.port = some (addr, mmu) ∧
      (s.servers i).tagGen.getTag = some (tag, tagGen) ∧
      q.items = (s.servers i).reqFifo.items ++ [⟨l.req, addr, tag.setWidth 6, l.client⟩] ∧
      s' = (s.setServer i { s.servers i with lreqFifo := rest, reqFifo := q, tagGen }).setUnit j a mmu ∧
      events = [.server i (.renamed ⟨l.req, addr, tag.setWidth 6, l.client⟩),
        .server i (.tag ⟨.given, (s.servers i).tagGen.headPtr⟩),
        .mmu j (.answered dir.port addr)] := by
  simp only [checkMmuResp, MMUAddrServer.get, firing] at hs
  obtain ⟨l, hHead, j, hj, addr, a, mmu, ⟨first, tok, hTok, rfl, rv, m, hGet, rfl, rfl, rfl⟩,
    r, path, hPath, rfl, rfl⟩ := hs
  obtain ⟨l', rest, tag, tagGen, q, hl, hTag, hq, rfl, rfl⟩ := RequestPath.checkMmuResp_cases hPath
  rw [hl, List.head?_cons, Option.some.injEq] at hHead
  subst hHead
  exact ⟨_, rest, j, _, _, _, tag, tagGen, q, hl, hj, hTok, hGet, hTag, hq, rfl, rfl⟩

theorem addrTrans_cases {pointer offset : BitVec 32}
    (hs : s.addrTrans dir pointer offset = some (s', events)) :
    ∃ (j : Fin numMMUs) (q : Fifo (BitVec 32) 2) (mmu : MMU addrWidth),
      mmuOf numMMUs pointer = some j ∧ q.items = s.addrReqFifo.items ++ [pointer] ∧
      (s.mmus j).put dir.port ⟨pointer.setWidth 5, offset.setWidth 44⟩ = some mmu ∧
      s' = { s with addrReqFifo := q }.setUnit j (s.mmuServers j) mmu ∧
      events = [.sent (.trans pointer offset
          ((s.mmus j).tables.translate addrWidth ⟨pointer.setWidth 5, offset.setWidth 44⟩)),
        .mmu j (.requested dir.port ⟨pointer.setWidth 5, offset.setWidth 44⟩)] := by
  simp only [addrTrans, firing] at hs
  obtain ⟨q, ⟨-, hq⟩, j, hj, mmu, hPut, rfl, rfl⟩ := hs
  exact ⟨j, q, mmu, hj, hq, hPut, rfl, rfl⟩

theorem mmuEntry_cases (hs : s.mmuEntry dir = some (s', events)) :
    ∃ (first : BitVec 32) (q : Fifo (BitVec 32) 2) (j : Fin numMMUs) (addr : BitVec addrWidth)
      (mmu : MMU addrWidth), s.addrReqFifo.items = first :: q.items ∧ mmuOf numMMUs first = some j ∧
      (s.mmus j).get dir.port = some (addr, mmu) ∧
      s' = { s with addrReqFifo := q }.setUnit j (s.mmuServers j) mmu ∧
      events = [.addrResponse addr, .mmu j (.answered dir.port addr)] := by
  simp only [mmuEntry, firing] at hs
  obtain ⟨first, q, hq, j, hj, addr, mmu, hGet, rfl, rfl⟩ := hs
  exact ⟨first, q, j, addr, mmu, hq, hj, hGet, rfl, rfl⟩

section

variable (h : Inv dir trace s P)

include h

theorem Inv.loadClient {client : Fin numClients} {req : MemRequest}
    (hOk : Separated dir trace s (.loadClient i client req))
    (hs : s.loadClient dir i client req = some (s', events)) :
    ∃ P', Inv dir (trace ++ events) s' P' := by
  rcases loadClient_cases hs with ⟨e, q, rfl, rfl⟩ | ⟨j, q, a, mmu, hRange, hj, hq, hTok, hPut, rfl, rfl⟩
  · refine ⟨P, h.quiet ⟨fun _ => rfl, rfl, fun src => ?_⟩ (update_same RequestPath.lreqFifo rfl) (fun _ => rfl) rfl
      h.abstracts (fun _ => rfl) fun k => ?_⟩
    · cases src <;> rfl
    · by_cases hk : k = i <;> simp [hk, taken, setServer]
  · obtain ⟨Q, hAbs, hDue⟩ := MMU.put_due (h.abstracts j) hPut
    obtain ⟨hUnmixed, hClear⟩ := hOk hRange j (Option.mem_def.mpr hj)
    refine ⟨_, h.send (x := .request i ⟨req, client⟩ ((s.mmus j).tables.translate addrWidth req.reqTup)) hj _
      (fun k => ?_) hTok (List.append_nil _).symm hAbs hDue (update_same RequestPath.reqFifo rfl) hUnmixed hClear⟩
    rw [append_update (fun p : RequestPath _ _ _ _ => p.lreqFifo.items) hq k, List.map_append]
    by_cases hk : i = k
    · simp [hk, Pending.source, Pending.label]
    · simp [hk, Pending.source]

/-- The head of a server's queue is its oldest pending request. -/
theorem Inv.oldest_request {l : LRec numClients} {rest : List (LRec numClients)}
    (hl : (s.servers i).lreqFifo.items = l :: rest) :
    ∃ older outcome newer, pending trace = older ++ .request i l outcome :: newer ∧
      ∀ y ∈ older, y.source ≠ some i := by
  have hAll := h.lreq i
  rw [hl, List.map_cons, eq_comm, List.map_eq_cons_iff] at hAll
  obtain ⟨x, xs, hHaving, hLabel, -⟩ := hAll
  obtain ⟨older, newer, hPending, hSource, hOlder, -⟩ := exists_oldest hHaving
  cases x with
  | request k l' outcome =>
    cases hLabel
    cases hSource
    exact ⟨older, outcome, newer, hPending, hOlder⟩
  | trans pointer offset outcome => cases hSource

theorem Inv.oldest_trans {first : BitVec 32} {rest : List (BitVec 32)}
    (hFirst : s.addrReqFifo.items = first :: rest) :
    ∃ older offset outcome newer, pending trace = older ++ .trans first offset outcome :: newer ∧
      ∀ y ∈ older, y.source ≠ none := by
  have hAll := h.asks
  rw [hFirst, eq_comm, List.map_eq_cons_iff] at hAll
  obtain ⟨x, xs, hHaving, hPointer, -⟩ := hAll
  obtain ⟨older, newer, hPending, hSource, hOlder, -⟩ := exists_oldest hHaving
  cases x with
  | request k l outcome => cases hSource
  | trans pointer offset outcome =>
    cases hPointer
    exact ⟨older, offset, outcome, newer, hPending, hOlder⟩

/-- The oldest question is the oldest request at its unit, because nothing else is
there. -/
theorem Inv.trans_first (hSource : x.source = none)
    (hPending : pending trace = older ++ x :: newer) (hOlder : ∀ y ∈ older, y.source ≠ none) :
    ∀ y ∈ older, y.mmu numMMUs ≠ x.mmu numMMUs := by
  intro y hy hSame
  have hKind := h.unmixed y (by simp [hPending, hy]) x (by simp [hPending]) hSame
  rw [hSource, Option.isSome_none, Option.isSome_eq_false_iff, Option.isNone_iff_eq_none] at hKind
  exact hOlder y hy hKind

/-- The oldest request of a server whose token comes first is the oldest at its unit. -/
theorem Inv.request_first (hSource : x.source = some i) {j : Fin numMMUs}
    (hMmu : x.mmu numMMUs = some j)
    (hPending : pending trace = older ++ x :: newer) (hOlder : ∀ y ∈ older, y.source ≠ some i)
    {tokens : List (Fin nMasters)} (hTok : (s.mmuServers j).tokFifo.items = i :: tokens) :
    ∀ y ∈ older, y.mmu numMMUs ≠ x.mmu numMMUs := by
  by_contra hNot
  push Not at hNot
  obtain ⟨y, hy, hSame⟩ := hNot
  -- the first request at the unit would be one of the older ones, with a token of its own
  cases hFirst : having (Pending.mmu numMMUs) (some j) older with
  | nil =>
    have hMem : y ∈ having (Pending.mmu numMMUs) (some j) older :=
      mem_having.mpr ⟨hy, hSame.trans hMmu⟩
    rw [hFirst] at hMem
    cases hMem
  | cons z rest =>
    obtain ⟨hz, hzMmu⟩ := mem_having.mp (hFirst ▸ List.mem_cons_self : z ∈ having _ _ older)
    have hKind := h.unmixed z (by simp [hPending, hz]) x (by simp [hPending]) (hzMmu.trans hMmu.symm)
    rw [hSource, Option.isSome_some, Option.isSome_iff_exists] at hKind
    obtain ⟨k, hk⟩ := hKind
    have hAll := h.tok j
    rw [hTok, hPending, having_append, hFirst, List.cons_append, List.filterMap_cons_some hk] at hAll
    obtain ⟨rfl, -⟩ := List.cons.inj hAll
    exact hOlder z hz hk

theorem Inv.answer_first {j : Fin numMMUs} (hMmu : x.mmu numMMUs = some j)
    (hPending : pending trace = older ++ x :: newer) (hOlder : ∀ y ∈ older, y.mmu numMMUs ≠ x.mmu numMMUs)
    {rest : List (BitVec addrWidth)} (hDue : (P j).due dir.port = addr :: rest) : x.answer = some addr := by
  have hAll := h.due j
  have hClear := h.clear
  rw [hPending] at hClear
  rw [hDue, hPending, ← hMmu] at hAll
  cases hAnswer : x.answer with
  | none =>
    rw [hClear.silent hOlder hAnswer] at hAll
    cases hAll
  | some addr' =>
    rw [having_oldest hOlder, having_singleton, if_pos rfl, List.singleton_append,
      List.filterMap_cons_some hAnswer] at hAll
    exact congrArg some (List.cons.inj hAll).1.symm

theorem Inv.checkMmuResp (hs : s.checkMmuResp dir i = some (s', events)) :
    ∃ P', Inv dir (trace ++ events) s' P' := by
  obtain ⟨l, rest, j, a, addr, mmu, tag, tagGen, q, hl, hj, hTok, hGet, -, hq, rfl, rfl⟩ :=
    checkMmuResp_cases hs
  obtain ⟨older, outcome, newer, hPending, hOlder⟩ := h.oldest_request hl
  have hMmu := h.request_first (x := .request i l outcome) rfl hj hPending hOlder hTok
  obtain ⟨Q, hAbs, hDue⟩ := MMU.get_due (h.abstracts j) hGet
  have hAnswer := h.answer_first (x := .request i l outcome) hj hPending hMmu hDue
  refine ⟨_, h.settle hPending hOlder hj hMmu hAnswer rfl rfl (fun src => ?_) (fun k => ?_) hTok rfl hAbs hDue
    (fun _ => rfl) fun k => ?_⟩
  · cases src with
    | none => rfl
    | some k =>
      by_cases hk : i = k
      · simp [hk, settled, renamed, Pending.source, Pending.label]
      · simp [hk, settled, renamed, Pending.source]
  · by_cases hk : i = k
    · subst hk
      simp [hl, Pending.source, Pending.label]
    · simp [hk, Ne.symm hk, Pending.source]
  · rw [append_update (fun p : RequestPath _ _ _ _ => p.reqFifo.items) hq k]
    by_cases hk : i = k <;> simp [hk, renamed]

theorem Inv.addrTrans {pointer offset : BitVec 32} (hOk : Separated dir trace s (.addrTrans pointer offset))
    (hs : s.addrTrans dir pointer offset = some (s', events)) :
    ∃ P', Inv dir (trace ++ events) s' P' := by
  obtain ⟨j, q, mmu, hj, hq, hPut, rfl, rfl⟩ := addrTrans_cases hs
  obtain ⟨Q, hAbs, hDue⟩ := MMU.put_due (h.abstracts j) hPut
  obtain ⟨hUnmixed, hClear⟩ := hOk j (Option.mem_def.mpr hj)
  exact ⟨_, h.send (x := .trans pointer offset ((s.mmus j).tables.translate addrWidth
    ⟨pointer.setWidth 5, offset.setWidth 44⟩)) hj _ (fun _ => (List.append_nil _).symm) (List.append_nil _).symm hq
    hAbs hDue (fun _ => rfl) hUnmixed hClear⟩

theorem Inv.mmuEntry (hs : s.mmuEntry dir = some (s', events)) :
    ∃ P', Inv dir (trace ++ events) s' P' := by
  obtain ⟨first, q, j, addr, mmu, hq, hj, hGet, rfl, rfl⟩ := mmuEntry_cases hs
  obtain ⟨older, offset, outcome, newer, hPending, hOlder⟩ := h.oldest_trans hq
  have hMmu := h.trans_first (x := .trans first offset outcome) rfl hPending hOlder
  obtain ⟨Q, hAbs, hDue⟩ := MMU.get_due (h.abstracts j) hGet
  have hAnswer := h.answer_first (x := .trans first offset outcome) hj hPending hMmu hDue
  refine ⟨_, h.settle hPending hOlder hj hMmu hAnswer rfl rfl (fun src => ?_) (fun _ => rfl) rfl hq hAbs hDue
    (fun _ => rfl) fun _ => (List.append_nil _).symm⟩
  cases src <;> rfl

end

variable {served : List (RequestPath.Event numClients tsz addrWidth)}

/-- What happens at one server besides loading and renaming leaves its queue of
untranslated requests alone, and passes renamed requests on to the bus. -/
theorem serve_cases {a : RequestPath.Service tsz} {path path' : RequestPath numClients numTags tsz addrWidth}
    (hs : RequestPath.serve a path = some (path', served)) : path'.lreqFifo = path.lreqFifo ∧
      ((∃ r, served = [.taken r] ∧ path.reqFifo.items = r :: path'.reqFifo.items) ∨
        path'.reqFifo = path.reqFifo ∧
          ((∃ tags : List (TagGen.Event tsz), served = tags.map .tag) ∨ ∃ e, served = [.reported e])) := by
  cases a
  all_goals simp only [RequestPath.serve, firing] at hs
  case takeReq =>
    obtain ⟨r, q, hq, rfl, rfl⟩ := hs
    exact ⟨rfl, .inl ⟨r, rfl, hq⟩⟩
  case returnTag tag =>
    obtain ⟨tagGen, -, rfl, rfl⟩ := hs
    exact ⟨rfl, .inr ⟨rfl, .inl ⟨[_], rfl⟩⟩⟩
  case complete =>
    obtain ⟨tag, tagGen, -, rfl, rfl⟩ := hs
    exact ⟨rfl, .inr ⟨rfl, .inl ⟨[_], rfl⟩⟩⟩
  case dmaError =>
    obtain ⟨e, _, hError, rfl, rfl⟩ := hs
    obtain ⟨q, rfl⟩ := RequestPath.dmaError_cases hError
    exact ⟨rfl, .inr ⟨rfl, .inr ⟨e, rfl⟩⟩⟩
  case tagRule r =>
    obtain ⟨tagGen, tags, -, rfl, rfl⟩ := hs
    exact ⟨rfl, .inr ⟨rfl, .inl ⟨tags, rfl⟩⟩⟩

theorem silent_map_mmu (j : Fin numMMUs) (es : List (MMU.Event addrWidth)) :
    Silent (es.map (.mmu j) : List (Event nMasters numClients numMMUs tsz addrWidth)) := by
  induction es with
  | nil => exact ⟨fun _ => rfl, rfl, fun src => by cases src <;> rfl⟩
  | cons e es ih => exact ⟨ih.1, ih.2.1, fun src => by have := ih.2.2 src; cases src <;> exact this⟩

theorem silent_map_tag (i : Fin nMasters) (es : List (TagGen.Event tsz)) :
    Silent ((es.map .tag).map (.server i) :
      List (Event nMasters numClients numMMUs tsz addrWidth)) := by
  induction es with
  | nil => exact ⟨fun _ => rfl, rfl, fun src => by cases src <;> rfl⟩
  | cons e es ih => exact ⟨ih.1, ih.2.1, fun src => by have := ih.2.2 src; cases src <;> exact this⟩

theorem taken_map_mmu (j : Fin numMMUs) (es : List (MMU.Event addrWidth)) (k : Fin nMasters) :
    taken (es.map (.mmu j) : List (Event nMasters numClients numMMUs tsz addrWidth)) k = [] := by
  induction es with
  | nil => rfl
  | cons e es ih => exact ih

theorem taken_map_tag (i : Fin nMasters) (es : List (TagGen.Event tsz)) (k : Fin nMasters) :
    taken ((es.map .tag).map (.server i) :
      List (Event nMasters numClients numMMUs tsz addrWidth)) k = [] := by
  induction es with
  | nil => rfl
  | cons e es ih => exact ih

theorem Inv.service {a : RequestPath.Service tsz} (h : Inv dir trace s P)
    {path : RequestPath numClients numTags tsz addrWidth}
    (hs : RequestPath.serve a (s.servers i) = some (path, served)) :
    Inv dir (trace ++ served.map (.server i)) (s.setServer i path) P := by
  obtain ⟨hLreq, hServed⟩ := serve_cases hs
  have hFinish : Silent (served.map (.server i) : List (Event nMasters numClients numMMUs tsz addrWidth)) →
      (∀ k, (s.servers k).reqFifo.items = taken (served.map (.server i) :
        List (Event nMasters numClients numMMUs tsz addrWidth)) k ++ ((s.setServer i path).servers k).reqFifo.items) →
      Inv dir (trace ++ served.map (.server i)) (s.setServer i path) P := fun hSilent hBus =>
    h.quiet hSilent (update_same RequestPath.lreqFifo hLreq) (fun _ => rfl) rfl h.abstracts (fun _ => rfl) hBus
  rcases hServed with ⟨r, rfl, hTaken⟩ | ⟨hSame, hServed⟩
  · refine hFinish ⟨fun _ => rfl, rfl, fun src => by cases src <;> rfl⟩ fun k => ?_
    rw [update_append (fun p : RequestPath _ _ _ _ => p.reqFifo.items)
      (show (s.servers i).reqFifo.items = [r] ++ path.reqFifo.items from hTaken) k]
    by_cases hk : i = k <;> simp [hk, taken, setServer]
  · have hReq : ∀ k, ((s.setServer i path).servers k).reqFifo = (s.servers k).reqFifo :=
      update_same RequestPath.reqFifo hSame
    rcases hServed with ⟨tags, rfl⟩ | ⟨e, rfl⟩
    · refine hFinish (silent_map_tag i tags) fun k => ?_
      rw [taken_map_tag]
      exact congrArg Fifo.items (hReq k).symm
    · exact hFinish ⟨fun _ => rfl, rfl, fun src => by cases src <;> rfl⟩ fun k =>
        congrArg Fifo.items (hReq k).symm

/-- An action that does not use a port neither asks it nor takes its answers. -/
theorem flow_unused {a : MMU.Action} {Q Q' : MMU.Pipe addrWidth} {es : List (MMU.Event addrWidth)}
    {port : Fin 2} (hs : MMU.FlowStep Q a Q' es) (hUses : a.uses port = false) :
    MMU.requests port es = [] ∧ MMU.answers port es = [] := by
  cases hs with
  | put k | get k =>
    have hk : k ≠ port := of_decide_eq_false hUses
    simp [MMU.requests, MMU.answers, hk]
  | _ => exact ⟨rfl, rfl⟩

/-- An action at a unit that does not use the ports of this direction. -/
theorem Inv.unit {a : MMU.Action} {j : Fin numMMUs} {mmu : MMU addrWidth}
    {es : List (MMU.Event addrWidth)} (h : Inv dir trace s P) (hUses : a.uses dir.port = false)
    (hCalm : MMU.Calm dir.port (s.mmus j) a)
    (hs : MMU.fire (BitVec.ofNat 32 j) a (s.mmus j) = some (mmu, es)) :
    ∃ P', Inv dir (trace ++ es.map (.mmu j)) (s.setUnit j (s.mmuServers j) mmu) P' := by
  obtain ⟨Q, hAbs, hFlow, hDue⟩ := MMU.fire_due (h.abstracts j) hs hCalm
  obtain ⟨hRequests, hAnswers⟩ := flow_unused hFlow hUses
  have hSame : Q.due dir.port = (P j).due dir.port := by
    rw [hRequests, hAnswers] at hDue
    simpa [MMU.oks] using hDue.symm
  refine ⟨_, h.quiet (silent_map_mmu j es) (fun _ => rfl) (update_same MMUAddrServer.tokFifo rfl) rfl
    (update_rel h.abstracts hAbs) (update_same (fun p : MMU.Pipe addrWidth => p.due dir.port) hSame) fun k => ?_⟩
  rw [taken_map_mmu]
  rfl

theorem Inv.incArb (h : Inv dir trace s P) (j : Fin numMMUs) :
    Inv dir (trace ++ []) (s.setUnit j (s.mmuServers j).incArb (s.mmus j)) P := by
  refine h.quiet ⟨fun _ => rfl, rfl, fun src => by cases src <;> rfl⟩ (fun _ => rfl)
    (update_same MMUAddrServer.tokFifo rfl) rfl (fun k => ?_) (fun _ => rfl) fun _ => rfl
  simpa [setUnit] using h.abstracts k

/-- Every action that the contract admits keeps queues, units and history in
agreement with the pending requests. -/
theorem Inv.step {a : Action nMasters numClients numMMUs tsz} (h : Inv dir trace s P)
    (hOk : Separated dir trace s a) (hs : fire dir a s = some (s', events)) :
    ∃ P', Inv dir (trace ++ events) s' P' := by
  cases a with
  | loadClient i client req => exact h.loadClient hOk hs
  | checkMmuResp i => exact h.checkMmuResp hs
  | service i a =>
    simp only [fire, firing] at hs
    obtain ⟨path, served, hServe, rfl, rfl⟩ := hs
    exact ⟨P, h.service hServe⟩
  | incArb j =>
    simp only [fire, firing] at hs
    obtain ⟨rfl, rfl⟩ := hs
    exact ⟨P, h.incArb j⟩
  | mmu j a =>
    simp only [fire] at hs
    split at hs
    · cases hs
    · next hUses =>
      simp only [firing] at hs
      obtain ⟨mmu, es, hFire, rfl, rfl⟩ := hs
      exact h.unit (Bool.eq_false_iff.mpr hUses) hOk hFire
  | addrTrans pointer offset => exact h.addrTrans hOk hs
  | mmuEntry => exact h.mmuEntry hs

end Steps

theorem run_inv (run : (machine nMasters numClients numMMUs numTags tsz addrWidth dir).Run
    (Separated dir) s trace) : ∃ P, Inv dir trace s P := by
  refine run.invariant (fun trace s => ∃ P, Inv dir trace s P) ?_ ?_
  · rintro s ⟨tagMem, mmus, rfl, hMmus⟩
    exact powerUp_inv tagMem hMmus
  · rintro trace s action s' events ⟨P, h⟩ hOk hs
    exact h.step hOk hs

end MemServer
end Connectal
