import Connectal.Memory.Types
import Connectal.Rules.Batch

/-! `mkAddressGenerator`, which gives the beats of a burst their addresses, and the registers
of `mkPipeInMemSlave` around it. The words of the bus have `2 ^ beatShift` bytes. -/
namespace Connectal.Portal

open Rules

/-- The address of one beat. -/
structure AddrBeat (addrWidth : Nat) where
  addr : BitVec addrWidth
  bc : BitVec 8
  tag : BitVec 6
  last : Bool
  deriving DecidableEq, Repr

structure AddressGenerator (addrWidth : Nat) where
  requestFifo : Fifo (PhysMemRequest addrWidth) 1
  addrBeatFifo : Fifo (AddrBeat addrWidth) 2
  addrReg : BitVec addrWidth
  burstCountReg : BitVec 8
  isFirstReg : Bool
  isLastReg : Bool

namespace AddressGenerator

variable {addrWidth : Nat}

def powerUp : AddressGenerator addrWidth := ⟨.empty, .empty, 0, 0, true, false⟩

def request (req : PhysMemRequest addrWidth) (g : AddressGenerator addrWidth) :
    Option (AddressGenerator addrWidth) := do
  let requestFifo ← g.requestFifo.enq req
  return { g with requestFifo }

def addrBeatRule (beatShift : Nat) (g : AddressGenerator addrWidth) :
    Option (AddressGenerator addrWidth) := do
  let (req, rest) ← g.requestFifo.deq
  let addr := if g.isFirstReg then req.addr else g.addrReg
  let burstCount := if g.isFirstReg then req.burstLen >>> beatShift else g.burstCountReg
  let isLast := if g.isFirstReg then req.burstLen == BitVec.ofNat 8 (2 ^ beatShift) else g.isLastReg
  let addrBeatFifo ← g.addrBeatFifo.enq ⟨addr, burstCount, req.tag, isLast⟩
  return {
    requestFifo := if isLast then rest else g.requestFifo
    addrBeatFifo
    addrReg := addr + 1
    burstCountReg := burstCount - 1
    isFirstReg := isLast
    isLastReg := burstCount == 2 }

def addrBeat (g : AddressGenerator addrWidth) : Option (AddrBeat addrWidth × AddressGenerator addrWidth) := do
  let (beat, addrBeatFifo) ← g.addrBeatFifo.deq
  return (beat, { g with addrBeatFifo })

/-- All bursts are single words, and `k` of them are in the generator. -/
structure Words (beatShift k : Nat) (g : AddressGenerator addrWidth) : Prop where
  first : g.isFirstReg = true
  requests : ∀ req ∈ g.requestFifo.items, req.burstLen = BitVec.ofNat 8 (2 ^ beatShift)
  beats : ∀ beat ∈ g.addrBeatFifo.items, beat.last = true
  count : g.requestFifo.items.length + g.addrBeatFifo.items.length = k

variable {beatShift k : Nat} {g g' : AddressGenerator addrWidth}

/-- How far the bursts in the generator are from being used. -/
def load (g : AddressGenerator addrWidth) : Nat :=
  2 * g.requestFifo.items.length + g.addrBeatFifo.items.length

theorem words_powerUp : Words beatShift 0 (powerUp : AddressGenerator addrWidth) :=
  ⟨rfl, fun _ h => (by cases h), fun _ h => (by cases h), rfl⟩

section

variable (h : g.Words beatShift k)

include h

theorem Words.request {req : PhysMemRequest addrWidth}
    (hLen : req.burstLen = BitVec.ofNat 8 (2 ^ beatShift)) (hFire : g.request req = some g') :
    g'.Words beatShift (k + 1) ∧ g'.load = g.load + 2 := by
  simp only [AddressGenerator.request, firing] at hFire
  obtain ⟨q, ⟨-, hq⟩, rfl⟩ := hFire
  have hLength : q.items.length = g.requestFifo.items.length + 1 := by rw [hq, List.length_append]; rfl
  refine ⟨{ h with requests := ?_, count := ?_ }, ?_⟩
  · show ∀ r ∈ q.items, _
    rw [hq, List.forall_mem_append, List.forall_mem_singleton]
    exact ⟨h.requests, hLen⟩
  · show q.items.length + g.addrBeatFifo.items.length = _
    rw [hLength, ← h.count]
    omega
  · show 2 * q.items.length + g.addrBeatFifo.items.length = _
    rw [hLength, load]
    omega

theorem Words.addrBeatRule (hFire : g.addrBeatRule beatShift = some g') :
    g'.Words beatShift k ∧ g'.load + 1 = g.load := by
  simp only [AddressGenerator.addrBeatRule, firing] at hFire
  obtain ⟨req, rest, hReq, q, ⟨-, hq⟩, rfl⟩ := hFire
  have hOne : (req.burstLen == BitVec.ofNat 8 (2 ^ beatShift)) = true :=
    beq_iff_eq.mpr (h.requests req (by simp [hReq]))
  have hCount := h.count
  rw [hReq, List.length_cons] at hCount
  simp only [h.first, if_true, hOne] at hq ⊢
  have hLength : q.items.length = g.addrBeatFifo.items.length + 1 := by rw [hq, List.length_append]; rfl
  refine ⟨⟨rfl, ?_, ?_, ?_⟩, ?_⟩
  · exact fun r hr => h.requests r (by rw [hReq]; exact List.mem_cons_of_mem _ hr)
  · show ∀ b ∈ q.items, _
    rw [hq, List.forall_mem_append, List.forall_mem_singleton]
    exact ⟨h.beats, rfl⟩
  · show rest.items.length + q.items.length = _
    rw [hLength, ← hCount]
    omega
  · show 2 * rest.items.length + q.items.length + 1 = _
    rw [hLength, load, hReq, List.length_cons]
    omega

theorem Words.addrBeat {beat : AddrBeat addrWidth} (hFire : g.addrBeat = some (beat, g')) :
    beat.last = true ∧ 0 < k ∧ g'.Words beatShift (k - 1) ∧ g'.load + 1 = g.load := by
  simp only [AddressGenerator.addrBeat, firing] at hFire
  obtain ⟨_, q, hq, rfl, rfl⟩ := hFire
  have hCount := h.count
  rw [hq, List.length_cons] at hCount
  refine ⟨h.beats _ (by simp [hq]), by omega, { h with beats := ?_, count := ?_ }, ?_⟩
  · exact fun b hb => h.beats b (by rw [hq]; exact List.mem_cons_of_mem _ hb)
  · show g.requestFifo.items.length + q.items.length = _
    omega
  · show 2 * g.requestFifo.items.length + q.items.length + 1 = _
    rw [load, hq, List.length_cons]
    omega

/-- A generator that holds a request and no beat makes the beat. -/
theorem Words.exists_addrBeatRule (hPos : 0 < k) (hBeats : g.addrBeatFifo.items = []) :
    ∃ g', g.addrBeatRule beatShift = some g' := by
  have hCount := h.count
  rw [hBeats, List.length_nil] at hCount
  cases hReq : g.requestFifo.items with
  | nil =>
    rw [hReq, List.length_nil] at hCount
    omega
  | cons req rest =>
    obtain ⟨q, hDeq, -⟩ := Fifo.exists_deq hReq
    obtain ⟨r, hEnq, -⟩ := Fifo.exists_enq_nil hBeats
      ⟨if g.isFirstReg then req.addr else g.addrReg,
        if g.isFirstReg then req.burstLen >>> beatShift else g.burstCountReg, req.tag,
        if g.isFirstReg then req.burstLen == BitVec.ofNat 8 (2 ^ beatShift) else g.isLastReg⟩
    exact ⟨_, by simp only [AddressGenerator.addrBeatRule, hDeq, some_bind, hEnq]; rfl⟩

end

theorem exists_addrBeat {beat : AddrBeat addrWidth} {rest : List (AddrBeat addrWidth)}
    (hBeats : g.addrBeatFifo.items = beat :: rest) : ∃ g', g.addrBeat = some (beat, g') := by
  obtain ⟨q, hDeq, -⟩ := Fifo.exists_deq hBeats
  exact ⟨_, by simp only [AddressGenerator.addrBeat, hDeq]; rfl⟩

theorem Words.exists_request (h : g.Words beatShift 0) (req : PhysMemRequest addrWidth) :
    ∃ g', g.request req = some g' := by
  have hCount := h.count
  obtain ⟨q, hEnq, -⟩ := Fifo.exists_enq (q := g.requestFifo) (by omega) req
  exact ⟨_, by simp only [AddressGenerator.request, hEnq]; rfl⟩

end AddressGenerator

/-- The registers of `mkPipeInMemSlave`. The pipe of the method is not part of them. -/
structure PipeInMemSlave where
  fifoReadAddrGenerator : AddressGenerator 8
  fifoWriteAddrGenerator : AddressGenerator 8
  fifoWriteDoneFifo : Fifo (BitVec 6) 2

namespace PipeInMemSlave

def powerUp : PipeInMemSlave := ⟨.powerUp, .powerUp, .empty⟩

/-- `readData.get`: the status word is at address 4, all other words read as 0. -/
def readDataGet (notFull : Bool) (s : PipeInMemSlave) : Option (MemData (BitVec 32) × PipeInMemSlave) := do
  let (b, fifoReadAddrGenerator) ← s.fifoReadAddrGenerator.addrBeat
  let v : BitVec 32 := if b.addr = 4 then (BitVec.ofBool notFull).setWidth 32 else 0
  return (⟨v, b.tag, b.last⟩, { s with fifoReadAddrGenerator })

/-- `writeData.put`, where `enq` is the method of the pipe. Every address takes the word. -/
def writeDataPut {M : Type} (enq : BitVec 32 → Option M) (d : BitVec 32) (s : PipeInMemSlave) :
    Option (M × PipeInMemSlave) := do
  let (b, fifoWriteAddrGenerator) ← s.fifoWriteAddrGenerator.addrBeat
  let fifoWriteDoneFifo ← s.fifoWriteDoneFifo.enqIf (b.last = true) b.tag
  let method ← enq d
  return (method, { s with fifoWriteAddrGenerator, fifoWriteDoneFifo })

def writeDoneGet (s : PipeInMemSlave) : Option (BitVec 6 × PipeInMemSlave) := do
  let (tag, fifoWriteDoneFifo) ← s.fifoWriteDoneFifo.deq
  return (tag, { s with fifoWriteDoneFifo })

end PipeInMemSlave

end Connectal.Portal
