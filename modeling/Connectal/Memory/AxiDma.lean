import Connectal.Memory.Types
import Mathlib.Data.Nat.Log

/-! The bridges of `AxiDma.bsv` between memory requests and AXI3, for a bus with words of `w` bytes. The
length of a burst passes them in beats, less one, in four bits. -/
namespace Connectal

open Rules

/-- `Axi3ReadRequest` and `Axi3WriteRequest`, which have the same fields. -/
structure Axi3Request (addrWidth idWidth : Nat) where
  address : BitVec addrWidth
  len : BitVec 4
  size : BitVec 3
  burst : BitVec 2
  prot : BitVec 3
  cache : BitVec 4
  id : BitVec idWidth
  lock : BitVec 2
  qos : BitVec 4
  deriving DecidableEq

structure Axi3WriteData (Data : Type) (w idWidth : Nat) where
  data : Data
  byteEnable : BitVec w
  last : BitVec 1
  id : BitVec idWidth
  deriving DecidableEq

def axiBusSize (busWidth : Nat) : BitVec 3 :=
  if busWidth = 32 then 0b010 else if busWidth = 64 then 0b011 else if busWidth = 128 then 0b100 else 0b011

/-- `TLog#(TDiv#(dataWidth,8))` -/
def axiBeatShift (w : Nat) : Nat := Nat.clog 2 w

/-- `req_ar` and `req_aw` of `mkAxiDmaSlave`: the request that the memory is sent. -/
def AxiDmaSlave.req {addrWidth : Nat} (w : Nat) (req : Axi3Request addrWidth 12) : PhysMemRequest addrWidth :=
  ⟨req.address, (req.len + 1).setWidth 8 <<< axiBeatShift w, req.id.setWidth 6⟩

structure AxiDmaMaster where
  burstReg : BitVec 8
  reqs : Fifo (BitVec 8) 32

namespace AxiDmaMaster

variable {addrWidth : Nat} {Data : Type} (w : Nat)

/-- The AXI request for a memory request. -/
def announce (req : PhysMemRequest addrWidth) : Axi3Request addrWidth 6 where
  address := req.addr
  len := ((req.burstLen >>> axiBeatShift w) - 1).setWidth 4
  size := axiBusSize (8 * w)
  burst := 1
  prot := 0
  cache := 3
  id := req.tag
  lock := 0
  qos := 0

/-- Reads are announced by `req_ar` without a record of them. -/
def reqAw (req : PhysMemRequest addrWidth) (s : AxiDmaMaster) : Option (Axi3Request addrWidth 6 × AxiDmaMaster) := do
  let reqs ← s.reqs.enq req.burstLen
  return (announce w req, { s with reqs })

/-- The beats of the present burst that are left, or those of the next one. -/
def burstLen (s : AxiDmaMaster) : Option (BitVec 8 × Fifo (BitVec 8) 32) :=
  if s.burstReg = 0 then s.reqs.deq.map fun (b, reqs) => (b >>> axiBeatShift w, reqs) else some (s.burstReg, s.reqs)

def respWrite (tagdata : MemData Data) (s : AxiDmaMaster) : Option (Axi3WriteData Data w 6 × AxiDmaMaster) := do
  let (burstLen, reqs) ← s.burstLen w
  return (⟨tagdata.data, BitVec.allOnes w, if burstLen = 1 then 1 else 0, tagdata.tag⟩, ⟨burstLen - 1, reqs⟩)

inductive Action (addrWidth : Nat) (Data : Type) where
  | reqAr (req : PhysMemRequest addrWidth)
  | reqAw (req : PhysMemRequest addrWidth)
  | respWrite (tagdata : MemData Data)

inductive Event (addrWidth : Nat) (Data : Type) (w : Nat) where
  | ar (req : PhysMemRequest addrWidth) (axi : Axi3Request addrWidth 6)
  | aw (req : PhysMemRequest addrWidth) (axi : Axi3Request addrWidth 6)
  | data (beat : Axi3WriteData Data w 6)
  deriving DecidableEq

/-- The memory's client sends requests and data as it likes. -/
def machine (addrWidth : Nat) (Data : Type) : Machine AxiDmaMaster (Action addrWidth Data) (Event addrWidth Data w) where
  init s := s = ⟨0, .empty⟩
  fire
    | .reqAr req, s => some (s, [.ar req (announce w req)])
    | .reqAw req, s => (s.reqAw w req).map fun (axi, s') => (s', [.aw req axi])
    | .respWrite tagdata, s => (s.respWrite w tagdata).map fun (beat, s') => (s', [.data beat])

/-- Requests are for 1 to `most` whole words. -/
def bursts (most : Nat) : Machine.Contract AxiDmaMaster (Action addrWidth Data) (Event addrWidth Data w) :=
  fun _ _ action =>
    match action with
    | .reqAr req | .reqAw req => ∃ n ≤ most, 1 ≤ n ∧ req.burstLen.toNat = n * w
    | .respWrite _ => True

/-- The last flags of a burst of `n` beats. -/
def flags (n : Nat) : List (BitVec 1) := (List.range n).map fun i => if i + 1 = n then 1 else 0

variable {w} in
def Event.write? : Event addrWidth Data w → Option (PhysMemRequest addrWidth)
  | .aw req _ => some req
  | _ => none

variable {w} in
def Event.last? : Event addrWidth Data w → Option (BitVec 1)
  | .data beat => some beat.last
  | _ => none

/-- A request is announced with its number of beats, and the other bridge makes the same request of it. The
identifiers are wider there. -/
def Announced (req : PhysMemRequest addrWidth) (axi : Axi3Request addrWidth 6) : Prop :=
  (axi.len.toNat + 1) * w = req.burstLen.toNat ∧ AxiDmaSlave.req w { axi with id := axi.id.setWidth 12 } = req

variable {w} in
def Event.Right : Event addrWidth Data w → Prop
  | .ar req axi | .aw req axi => Announced w req axi
  | .data _ => True

/-- Every request is announced well, and the flag stands on the last beat of each written burst. -/
structure Correct (trace : List (Event addrWidth Data w)) : Prop where
  requests : ∀ e ∈ trace, e.Right
  lasts : trace.filterMap Event.last? <+:
    (trace.filterMap Event.write?).flatMap fun req => flags (req.burstLen.toNat / w)

theorem flags_succ (n : Nat) : flags (n + 1) = (if n = 0 then 1 else 0) :: flags n := by
  simp [flags, List.range_succ_eq_map, Function.comp_def, eq_comm]

variable {w}

/-- On a bus whose words are a power of two of bytes, the lengths agree. -/
theorem announced (hw : w = 2 ^ axiBeatShift w) {req : PhysMemRequest addrWidth} {n : Nat} (hMost : n ≤ 15)
    (hn : 1 ≤ n) (hLen : req.burstLen.toNat = n * w) (hBeats : (req.burstLen >>> axiBeatShift w).toNat = n) :
    Announced w req (announce w req) := by
  have hOne : (1 : BitVec 8) ≤ req.burstLen >>> axiBeatShift w := by
    rw [BitVec.le_def, hBeats]
    exact hn
  have hAxi : (announce w req).len.toNat = n - 1 := by
    rw [announce, BitVec.toNat_setWidth, BitVec.toNat_sub_of_le hOne, hBeats]
    exact Nat.mod_eq_of_lt (show n - 1 < 16 by omega)
  have hNext : ((announce w req).len + 1).toNat = n := by
    rw [BitVec.toNat_add, hAxi]
    show (n - 1 + 1) % 16 = n
    omega
  refine ⟨by rw [hAxi, Nat.sub_add_cancel hn, hLen], ?_⟩
  have hBack : ((announce w req).len + 1).setWidth 8 <<< axiBeatShift w = req.burstLen := by
    refine BitVec.eq_of_toNat_eq ?_
    rw [BitVec.toNat_shiftLeft, BitVec.toNat_setWidth, hNext, Nat.mod_eq_of_lt (show n < 2 ^ 8 by omega),
      Nat.shiftLeft_eq, ← hw, ← hLen]
    exact Nat.mod_eq_of_lt req.burstLen.isLt
  have hTag : (req.tag.setWidth 12).setWidth 6 = req.tag := by
    refine BitVec.eq_of_toNat_eq ?_
    simp
  rw [AxiDmaSlave.req, hBack]
  show (⟨req.addr, req.burstLen, (req.tag.setWidth 12).setWidth 6⟩ : PhysMemRequest addrWidth) = req
  rw [hTag]

/-- The flags for a record in the queue. -/
def recorded (w : Nat) (b : BitVec 8) : List (BitVec 1) := flags (b >>> axiBeatShift w).toNat

/-- What is left of the bursts that were announced. -/
structure Inv (trace : List (Event addrWidth Data w)) (s : AxiDmaMaster) : Prop where
  requests : ∀ e ∈ trace, e.Right
  pos : ∀ b ∈ s.reqs.items, b >>> axiBeatShift w ≠ 0
  lasts : trace.filterMap Event.last? ++ (flags s.burstReg.toNat ++ s.reqs.items.flatMap (recorded w)) =
    (trace.filterMap Event.write?).flatMap fun req => flags (req.burstLen.toNat / w)

variable {trace : List (Event addrWidth Data w)} {s s' : AxiDmaMaster}

/-- Another burst is begun when the last one is over. -/
theorem burstLen_flags {burstLen : BitVec 8} {reqs : Fifo (BitVec 8) 32}
    (hPos : ∀ b ∈ s.reqs.items, b >>> axiBeatShift w ≠ 0) (h : s.burstLen w = some (burstLen, reqs)) :
    burstLen ≠ 0 ∧ (∀ b ∈ reqs.items, b ∈ s.reqs.items) ∧
      flags s.burstReg.toNat ++ s.reqs.items.flatMap (recorded w) =
        flags burstLen.toNat ++ reqs.items.flatMap (recorded w) := by
  unfold AxiDmaMaster.burstLen at h
  split at h
  · next hZero =>
    simp only [firing] at h
    obtain ⟨b, rest, hReqs, rfl, rfl⟩ := h
    rw [hReqs] at hPos ⊢
    refine ⟨hPos b List.mem_cons_self, fun _ => List.mem_cons_of_mem b, ?_⟩
    rw [hZero, List.flatMap_cons]
    rfl
  · next hBusy =>
    cases h
    exact ⟨hBusy, fun _ => id, rfl⟩

theorem flags_burst {burstLen : BitVec 8} (h : burstLen ≠ 0) :
    flags burstLen.toNat = (if burstLen = 1 then 1 else 0) :: flags (burstLen - 1).toNat := by
  have hPos : 1 ≤ burstLen.toNat := Nat.pos_of_ne_zero fun hZero => h (BitVec.eq_of_toNat_eq hZero)
  obtain ⟨n, hn⟩ := Nat.exists_eq_add_of_le' hPos
  have hMinus : (burstLen - 1).toNat = n := by
    rw [BitVec.toNat_sub_of_le (show (1 : BitVec 8) ≤ burstLen from BitVec.le_def.mpr hPos), hn]
    rfl
  have hOne : burstLen = 1 ↔ n = 0 := by
    rw [← BitVec.toNat_inj, hn]
    exact Nat.succ_inj
  rw [hMinus, hn, flags_succ]
  simp only [hOne]

attribute [local simp] List.filterMap_cons Event.last? Event.write?

theorem Inv.step (hw : w = 2 ^ axiBeatShift w) (h : Inv trace s) {action : Action addrWidth Data}
    {events : List (Event addrWidth Data w)} (hOk : bursts w 15 trace s action)
    (hFire : (machine w addrWidth Data).fire action s = some (s', events)) : Inv (trace ++ events) s' := by
  have hBeats : ∀ {req : PhysMemRequest addrWidth} {n : Nat}, req.burstLen.toNat = n * w →
      (req.burstLen >>> axiBeatShift w).toNat = n ∧ req.burstLen.toNat / w = n := fun hLen => by
    rw [BitVec.toNat_ushiftRight, Nat.shiftRight_eq_div_pow, ← hw, hLen,
      Nat.mul_div_cancel _ (hw ▸ Nat.two_pow_pos _)]
    exact ⟨rfl, rfl⟩
  cases action with
  | reqAr req =>
    obtain ⟨n, hMost, hn, hLen⟩ := hOk
    cases hFire
    have hNew := announced hw hMost hn hLen (hBeats hLen).1
    exact ⟨List.forall_mem_append.mpr ⟨h.requests, List.forall_mem_singleton.mpr hNew⟩, h.pos, by simpa using h.lasts⟩
  | reqAw req =>
    obtain ⟨n, hMost, hn, hLen⟩ := hOk
    simp only [machine, reqAw, firing] at hFire
    obtain ⟨_, _, ⟨reqs, ⟨-, hReqs⟩, rfl, rfl⟩, rfl, rfl⟩ := hFire
    obtain ⟨hLeft, hAll⟩ := hBeats hLen
    have hNew := announced hw hMost hn hLen hLeft
    refine ⟨List.forall_mem_append.mpr ⟨h.requests, List.forall_mem_singleton.mpr hNew⟩, ?_, ?_⟩
    · rw [hReqs, List.forall_mem_append, List.forall_mem_singleton]
      refine ⟨h.pos, fun hZero => ?_⟩
      rw [hZero] at hLeft
      exact absurd hLeft (Nat.ne_of_lt hn)
    · simpa [hReqs, recorded, hLeft, hAll] using congrArg (· ++ flags n) h.lasts
  | respWrite tagdata =>
    simp only [machine, respWrite, firing] at hFire
    obtain ⟨_, _, ⟨burstLen, reqs, hBurst, rfl, rfl⟩, rfl, rfl⟩ := hFire
    obtain ⟨hBusy, hOld, hFlags⟩ := burstLen_flags h.pos hBurst
    have hLasts := h.lasts
    rw [hFlags, flags_burst hBusy] at hLasts
    exact ⟨List.forall_mem_append.mpr ⟨h.requests, List.forall_mem_singleton.mpr trivial⟩,
      fun b hb => h.pos b (hOld b hb), by simpa using hLasts⟩

/-- On a bus whose words are a power of two of bytes, along every run with bursts of 1 to 15 beats. -/
theorem axi_bursts_correct (hw : w = 2 ^ axiBeatShift w)
    (run : (machine w addrWidth Data).Run (bursts w 15) s trace) : Correct w trace := by
  have h : Inv trace s := by
    refine run.invariant Inv ?_ fun _ _ _ _ _ h hOk hFire => h.step hw hOk hFire
    rintro _ rfl
    exact ⟨fun _ hMem => (by cases hMem), fun _ hMem => (by cases hMem), rfl⟩
  exact ⟨h.requests, _, h.lasts⟩

/-- A request for the whole words of a burst, on a bus of four bytes. -/
def words (n : BitVec 8) : PhysMemRequest 32 := ⟨0, n * 4, 0⟩

theorem axi_bursts_correct_two_words :
    ∃ s, (machine 4 32 Unit).Run (bursts 4 15) s [.aw (words 2) (announce 4 (words 2))] ∧
      Correct 4 ([.aw (words 2) (announce 4 (words 2))] : List (Event 32 Unit 4)) := by
  obtain ⟨s, hs⟩ : ∃ s, (machine 4 32 Unit).fire (.reqAw (words 2)) ⟨0, .empty⟩ =
    some (s, [.aw (words 2) (announce 4 (words 2))]) := ⟨_, rfl⟩
  have run : (machine 4 32 Unit).Run (bursts 4 15) s [.aw (words 2) (announce 4 (words 2))] :=
    ⟨_, rfl, .single ⟨.reqAw (words 2), _, ⟨2, by decide⟩, hs, rfl⟩⟩
  exact ⟨s, run, axi_bursts_correct (by decide) run⟩

/-- A burst of 16 beats becomes a request for no data in the other bridge. -/
theorem axi_burst_of_sixteen :
    ∃ s trace, (machine 4 32 Unit).Run (bursts 4 16) s trace ∧
      AxiDmaSlave.req 4 { announce 4 (words 16) with id := 0 } = ⟨0, 0, 0⟩ ∧ ¬ Correct 4 trace := by
  refine ⟨⟨0, .empty⟩, [.ar (words 16) (announce 4 (words 16))],
    ⟨_, rfl, .single ⟨.reqAr (words 16), _, ⟨16, by decide⟩, rfl, rfl⟩⟩, by decide, fun h => ?_⟩
  have hRead : Announced 4 (words 16) (announce 4 (words 16)) := h.requests _ (List.mem_singleton_self _)
  exact absurd hRead.2 (by decide)

end AxiDmaMaster
end Connectal
