import Connectal.Marshall.Adapter
import Connectal.Portal.AddressGenerator
import Connectal.Portal.BusyHardware

/-! Requests from one software thread to the methods of a hardware portal. The thread waits in
`busy_hardware` for the status word of the channel and then writes the words of the message;
the slave of the channel hands them to `mkFromBit`, and the hardware takes the structs. The
accesses of the thread go over the bus in the order of the program, and writes are posted:
their addresses may run ahead of their data. -/
namespace Connectal.Portal

open Rules

/-- Where the thread is in a proxy method. -/
inductive Thread (n : Nat) where
  | idle
  | busywait (i : Fin n) (words : List (BitVec 32)) (count : Nat) (asked : Bool)
  | marshall (i : Fin n) (written left : List (BitVec 32)) (ahead : Nat)
  deriving DecidableEq

namespace Thread

variable {n : Nat} (j : Fin n)

/-- The status reads of channel `j` that are on the bus. -/
def asked : Thread n → Nat
  | .busywait i _ _ true => if i = j then 1 else 0
  | _ => 0

/-- The writes of channel `j` whose data is still to come. -/
def ahead : Thread n → Nat
  | .marshall i _ _ ahead => if i = j then ahead else 0
  | _ => 0

/-- The words of an unfinished message of channel `j` that have been written. -/
def written : Thread n → List (BitVec 32)
  | .marshall i written _ _ => if i = j then written else []
  | _ => []

/-- A message has the words of its method. -/
def Legal (asz : Fin n → Nat) : Thread n → Prop
  | .idle => True
  | .busywait i words _ _ => words.length = nwords 32 (asz i)
  | .marshall i written left ahead => left ≠ [] ∧ ahead ≤ left.length ∧
      written.length + left.length = nwords 32 (asz i)

end Thread

/-- The request side of a portal whose method `i` has arguments of `asz i` bits. -/
structure RequestPortal {n : Nat} (asz : Fin n → Nat) where
  slaves : Fin n → PipeInMemSlave
  methods : (i : Fin n) → FromBit 32 (asz i)
  thread : Thread n

namespace RequestPortal

variable {n : Nat} {asz : Fin n → Nat}

inductive Event (asz : Fin n → Nat) where
  | wrote (i : Fin n) (w : BitVec 32)
  | sent (i : Fin n) (words : List (BitVec 32))
  | dropped (i : Fin n) (words : List (BitVec 32))
  | delivered (i : Fin n) (val : BitVec (asz i))

inductive Action (n : Nat) where
  | call (i : Fin n) (words : List (BitVec 32))
  | readReq (tag : BitVec 6)
  | readBeat (i : Fin n)
  | readData
  | writeReq (tag : BitVec 6)
  | writeBeat (i : Fin n)
  | writeData
  | writeDone (i : Fin n)
  | take (i : Fin n)
  deriving DecidableEq

def fire : Action n → RequestPortal asz → Option (RequestPortal asz × List (Event asz))
  | .call i words, s =>
    match s.thread with
    | .idle => some ({ s with thread := .busywait i words 50 false }, [])
    | _ => none
  | .readReq tag, s =>
    match s.thread with
    | .busywait i words count false => do
        let g ← (s.slaves i).fifoReadAddrGenerator.request ⟨4, 4, tag⟩
        return ({ s with
          slaves := Function.update s.slaves i { s.slaves i with fifoReadAddrGenerator := g }
          thread := .busywait i words count true }, [])
    | _ => none
  | .readBeat i, s => do
      let g ← (s.slaves i).fifoReadAddrGenerator.addrBeatRule 2
      return ({ s with
        slaves := Function.update s.slaves i { s.slaves i with fifoReadAddrGenerator := g } }, [])
  | .readData, s =>
    match s.thread with
    | .busywait i words count true => do
        let (d, slave) ← (s.slaves i).readDataGet ((s.methods i).fifo.items.length < 1)
        let slaves := Function.update s.slaves i slave
        match busyPoll d.data count with
        | .inl count => return ({ s with slaves, thread := .busywait i words count false }, [])
        | .inr left =>
          if busyReturn left = 0 then
            return ({ s with slaves, thread := .marshall i [] words 0 }, [])
          else return ({ s with slaves, thread := .idle }, [.dropped i words])
    | _ => none
  | .writeReq tag, s =>
    match s.thread with
    | .marshall i written left ahead => do
        guard (ahead < left.length)
        let g ← (s.slaves i).fifoWriteAddrGenerator.request ⟨0, 4, tag⟩
        return ({ s with
          slaves := Function.update s.slaves i { s.slaves i with fifoWriteAddrGenerator := g }
          thread := .marshall i written left (ahead + 1) }, [])
    | _ => none
  | .writeBeat i, s => do
      let g ← (s.slaves i).fifoWriteAddrGenerator.addrBeatRule 2
      return ({ s with
        slaves := Function.update s.slaves i { s.slaves i with fifoWriteAddrGenerator := g } }, [])
  | .writeData, s =>
    match s.thread with
    | .marshall i written (w :: left) ahead => do
        let (method, slave) ← (s.slaves i).writeDataPut (s.methods i).enq w
        let slaves := Function.update s.slaves i slave
        let methods := Function.update s.methods i method
        if left = [] then
          return (⟨slaves, methods, .idle⟩, [.wrote i w, .sent i (written ++ [w])])
        else return (⟨slaves, methods, .marshall i (written ++ [w]) left (ahead - 1)⟩, [.wrote i w])
    | _ => none
  | .writeDone i, s => do
      let (_, slave) ← (s.slaves i).writeDoneGet
      return ({ s with slaves := Function.update s.slaves i slave }, [])
  | .take i, s => do
      let (val, method) ← (s.methods i).take
      return ({ s with methods := Function.update s.methods i method }, [.delivered i val])

def machine (asz : Fin n → Nat) : Machine (RequestPortal asz) (Action n) (Event asz) where
  init s := s = ⟨fun _ => .powerUp, fun _ => .powerUp, .idle⟩
  fire := fire

/-- A message has the words of its method. -/
def fitting (asz : Fin n → Nat) (_ : List (Event asz)) (_ : RequestPortal asz) : Action n → Prop
  | .call i words => words.length = nwords 32 (asz i)
  | _ => True

instance (trace : List (Event asz)) (s : RequestPortal asz) (action : Action n) :
    Decidable (fitting asz trace s action) :=
  match action with
  | .call _ _ => inferInstanceAs (Decidable (_ = _))
  | .readReq _ | .readBeat _ | .readData | .writeReq _ | .writeBeat _ | .writeData | .writeDone _ | .take _ =>
    .isTrue trivial

/-- What `mkFromBit` of channel `j` sees of an event. -/
def method? (j : Fin n) : Event asz → Option (FromBit.Event 32 (asz j))
  | .wrote i w => if i = j then some (.fed w) else none
  | .delivered i val => if h : i = j then some (.got (h ▸ val)) else none
  | _ => none

def sent? (j : Fin n) : Event asz → Option (List (BitVec 32))
  | .sent i words => if i = j then some words else none
  | _ => none

def delivered (j : Fin n) (trace : List (Event asz)) : List (BitVec (asz j)) :=
  FromBit.got (trace.filterMap (method? j))

/-- What each action does. A poll has three outcomes, and the last word ends the message. -/
inductive Moves (s : RequestPortal asz) : Action n → RequestPortal asz → List (Event asz) → Prop where
  | call {i : Fin n} {words : List (BitVec 32)} : s.thread = .idle →
      Moves s (.call i words) { s with thread := .busywait i words 50 false } []
  | readReq {i : Fin n} {words : List (BitVec 32)} {count : Nat} {tag : BitVec 6} {g : AddressGenerator 8} :
      s.thread = .busywait i words count false →
      (s.slaves i).fifoReadAddrGenerator.request ⟨4, 4, tag⟩ = some g →
      Moves s (.readReq tag) { s with
        slaves := Function.update s.slaves i { s.slaves i with fifoReadAddrGenerator := g }
        thread := .busywait i words count true } []
  | readBeat {i : Fin n} {g : AddressGenerator 8} :
      (s.slaves i).fifoReadAddrGenerator.addrBeatRule 2 = some g →
      Moves s (.readBeat i) { s with
        slaves := Function.update s.slaves i { s.slaves i with fifoReadAddrGenerator := g } } []
  | again {i : Fin n} {words : List (BitVec 32)} {count count' : Nat} {d : MemData (BitVec 32)}
      {slave : PipeInMemSlave} : s.thread = .busywait i words count true →
      (s.slaves i).readDataGet ((s.methods i).fifo.items.length < 1) = some (d, slave) →
      busyPoll d.data count = .inl count' →
      Moves s .readData { s with
        slaves := Function.update s.slaves i slave
        thread := .busywait i words count' false } []
  | send {i : Fin n} {words : List (BitVec 32)} {count : Nat} {left : Int} {d : MemData (BitVec 32)}
      {slave : PipeInMemSlave} : s.thread = .busywait i words count true →
      (s.slaves i).readDataGet ((s.methods i).fifo.items.length < 1) = some (d, slave) →
      busyPoll d.data count = .inr left → busyReturn left = 0 →
      Moves s .readData { s with
        slaves := Function.update s.slaves i slave
        thread := .marshall i [] words 0 } []
  | drop {i : Fin n} {words : List (BitVec 32)} {count : Nat} {left : Int} {d : MemData (BitVec 32)}
      {slave : PipeInMemSlave} : s.thread = .busywait i words count true →
      (s.slaves i).readDataGet ((s.methods i).fifo.items.length < 1) = some (d, slave) →
      busyPoll d.data count = .inr left → busyReturn left ≠ 0 →
      Moves s .readData { s with
        slaves := Function.update s.slaves i slave
        thread := .idle } [.dropped i words]
  | writeReq {i : Fin n} {written left : List (BitVec 32)} {ahead : Nat} {tag : BitVec 6}
      {g : AddressGenerator 8} : s.thread = .marshall i written left ahead → ahead < left.length →
      (s.slaves i).fifoWriteAddrGenerator.request ⟨0, 4, tag⟩ = some g →
      Moves s (.writeReq tag) { s with
        slaves := Function.update s.slaves i { s.slaves i with fifoWriteAddrGenerator := g }
        thread := .marshall i written left (ahead + 1) } []
  | writeBeat {i : Fin n} {g : AddressGenerator 8} :
      (s.slaves i).fifoWriteAddrGenerator.addrBeatRule 2 = some g →
      Moves s (.writeBeat i) { s with
        slaves := Function.update s.slaves i { s.slaves i with fifoWriteAddrGenerator := g } } []
  | word {i : Fin n} {written left : List (BitVec 32)} {w : BitVec 32} {ahead : Nat}
      {method : FromBit 32 (asz i)} {slave : PipeInMemSlave} :
      s.thread = .marshall i written (w :: left) ahead → left ≠ [] →
      (s.slaves i).writeDataPut (s.methods i).enq w = some (method, slave) →
      Moves s .writeData ⟨Function.update s.slaves i slave, Function.update s.methods i method,
        .marshall i (written ++ [w]) left (ahead - 1)⟩ [.wrote i w]
  | last {i : Fin n} {written : List (BitVec 32)} {w : BitVec 32} {ahead : Nat}
      {method : FromBit 32 (asz i)} {slave : PipeInMemSlave} :
      s.thread = .marshall i written [w] ahead →
      (s.slaves i).writeDataPut (s.methods i).enq w = some (method, slave) →
      Moves s .writeData ⟨Function.update s.slaves i slave, Function.update s.methods i method, .idle⟩
        [.wrote i w, .sent i (written ++ [w])]
  | writeDone {i : Fin n} {tag : BitVec 6} {slave : PipeInMemSlave} :
      (s.slaves i).writeDoneGet = some (tag, slave) →
      Moves s (.writeDone i) { s with slaves := Function.update s.slaves i slave } []
  | take {i : Fin n} {val : BitVec (asz i)} {method : FromBit 32 (asz i)} :
      (s.methods i).take = some (val, method) →
      Moves s (.take i) { s with methods := Function.update s.methods i method } [.delivered i val]

theorem fire_moves {action : Action n} {s s' : RequestPortal asz} {events : List (Event asz)}
    (h : fire action s = some (s', events)) : Moves s action s' events := by
  cases action with
  | call i words =>
    simp only [fire] at h
    split at h
    · next hThread =>
      cases h
      exact .call hThread
    · cases h
  | readReq tag =>
    simp only [fire] at h
    split at h
    · next hThread =>
      simp only [firing] at h
      obtain ⟨g, hRequest, rfl, rfl⟩ := h
      exact .readReq hThread hRequest
    · cases h
  | readBeat i =>
    simp only [fire, firing] at h
    obtain ⟨g, hRule, rfl, rfl⟩ := h
    exact .readBeat hRule
  | readData =>
    simp only [fire] at h
    split at h
    · next hThread =>
      simp only [firing] at h
      obtain ⟨d, slave, hGet, h⟩ := h
      split at h
      · next hPoll =>
        cases h
        exact .again hThread hGet hPoll
      · next hPoll =>
        split at h <;> cases h
        · next hReturn => exact .send hThread hGet hPoll hReturn
        · next hReturn => exact .drop hThread hGet hPoll hReturn
    · cases h
  | writeReq tag =>
    simp only [fire] at h
    split at h
    · next hThread =>
      simp only [firing] at h
      obtain ⟨hMore, g, hRequest, rfl, rfl⟩ := h
      exact .writeReq hThread hMore hRequest
    · cases h
  | writeBeat i =>
    simp only [fire, firing] at h
    obtain ⟨g, hRule, rfl, rfl⟩ := h
    exact .writeBeat hRule
  | writeData =>
    simp only [fire] at h
    split at h
    · next hThread =>
      simp only [firing] at h
      obtain ⟨method, slave, hPut, h⟩ := h
      split at h <;> cases h
      · next hLast =>
        subst hLast
        exact .last hThread hPut
      · next hMore => exact .word hThread hMore hPut
    · cases h
  | writeDone i =>
    simp only [fire, firing] at h
    obtain ⟨tag, slave, hGet, rfl, rfl⟩ := h
    exact .writeDone hGet
  | take i =>
    simp only [fire, firing] at h
    obtain ⟨val, method, hTake, rfl, rfl⟩ := h
    exact .take hTake

theorem Moves.fires {action : Action n} {s s' : RequestPortal asz} {events : List (Event asz)}
    (h : Moves s action s' events) : fire action s = some (s', events) := by
  cases h <;> simp only [fire, guard, some_bind, if_true, if_false, *] <;> rfl

end RequestPortal

end Connectal.Portal
