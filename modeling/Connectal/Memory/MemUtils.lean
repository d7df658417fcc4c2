import Connectal.Memory.Types
import Mathlib.Data.Nat.Log

/-! The buffered ports of `MemUtils.bsv`. `mkMemReaderBuff` lets a request out only when its
buffer has room for all the data, `mkMemWriterBuff` only when its buffer has all the data.
Both keep count with `mkConfigCounter`, whose calls take effect at the end of the cycle. -/
namespace Connectal

open Rules

/-- The calls of one cycle are on the wires, which read as 0 without a call. -/
structure ConfigCounter (w : Nat) where
  incWire : Option (BitVec w)
  decWire : Option (BitVec w)
  cnt : BitVec w

namespace ConfigCounter

variable {w n : Nat} {c c' : ConfigCounter w} {x : BitVec w}

def fresh : ConfigCounter w := ⟨none, none, 0⟩

/-- A wire takes one value in a cycle. -/
def increment (x : BitVec w) (c : ConfigCounter w) : Option (ConfigCounter w) := do
  guard (c.incWire = none)
  pure { c with incWire := some x }

def decrement (x : BitVec w) (c : ConfigCounter w) : Option (ConfigCounter w) := do
  guard (c.decWire = none)
  pure { c with decWire := some x }

/-- The rule `react`, at the end of the cycle. -/
def react (c : ConfigCounter w) : ConfigCounter w :=
  let inc := c.incWire.getD 0#w
  let dec := c.decWire.getD 0#w
  ⟨none, none, if dec < inc then c.cnt + (inc - dec) else c.cnt - (dec - inc)⟩

/-- Between two cycles nothing is on the wires. -/
def Idle (c : ConfigCounter w) : Prop := c.incWire = none ∧ c.decWire = none

instance (c : ConfigCounter w) : Decidable c.Idle := inferInstanceAs (Decidable (_ ∧ _))

/-- The count with the calls of this cycle, which is a number that the register can hold. -/
structure Level (c : ConfigCounter w) (n : Nat) : Prop where
  bound : n < 2 ^ w
  count : c.cnt.toNat + (c.incWire.getD 0#w).toNat = n + (c.decWire.getD 0#w).toNat

theorem fresh_level : (fresh : ConfigCounter w).Level 0 := ⟨Nat.two_pow_pos w, by simp [fresh]⟩

theorem Level.cnt_eq (h : c.Level n) (hIdle : c.Idle) : c.cnt.toNat = n := by
  have hCount := h.count
  rw [hIdle.1, hIdle.2] at hCount
  simpa using hCount

theorem increment_eq_some : c.increment x = some c' ↔ c.incWire = none ∧ { c with incWire := some x } = c' := by
  simp only [increment, firing]

theorem decrement_eq_some : c.decrement x = some c' ↔ c.decWire = none ∧ { c with decWire := some x } = c' := by
  simp only [decrement, firing]

theorem Level.le_cnt (h : c.Level n) (hNone : c.incWire = none) : n ≤ c.cnt.toNat := by
  have hCount := h.count
  rw [hNone, Option.getD_none, BitVec.toNat_ofNat, Nat.zero_mod] at hCount
  omega

theorem Level.cnt_le (h : c.Level n) (hNone : c.decWire = none) : c.cnt.toNat ≤ n := by
  have hCount := h.count
  rw [hNone, Option.getD_none, BitVec.toNat_ofNat, Nat.zero_mod] at hCount
  omega

theorem Level.increment (h : c.Level n) (hNone : c.incWire = none) (hRoom : n + x.toNat < 2 ^ w) :
    Level { c with incWire := some x } (n + x.toNat) := by
  have hCount := h.count
  rw [hNone, Option.getD_none, BitVec.toNat_ofNat, Nat.zero_mod] at hCount
  refine ⟨hRoom, ?_⟩
  show c.cnt.toNat + x.toNat = n + x.toNat + (c.decWire.getD 0#w).toNat
  omega

theorem Level.decrement (h : c.Level n) (hNone : c.decWire = none) (hEnough : x.toNat ≤ n) :
    Level { c with decWire := some x } (n - x.toNat) := by
  have hCount := h.count
  rw [hNone, Option.getD_none, BitVec.toNat_ofNat, Nat.zero_mod] at hCount
  refine ⟨Nat.lt_of_le_of_lt (Nat.sub_le _ _) h.bound, ?_⟩
  show c.cnt.toNat + (c.incWire.getD 0#w).toNat = n - x.toNat + x.toNat
  omega

theorem Level.react (h : c.Level n) : c.react.Level n ∧ c.react.cnt.toNat = n := by
  have hCnt : c.react.cnt.toNat = n := by
    have hCount := h.count
    have hBound := h.bound
    have hInc := (c.incWire.getD 0#w).isLt
    have hDec := (c.decWire.getD 0#w).isLt
    simp only [ConfigCounter.react]
    split
    · next hLess =>
      rw [BitVec.lt_def] at hLess
      rw [BitVec.toNat_add, BitVec.toNat_sub_of_le (BitVec.le_def.mpr hLess.le), Nat.mod_eq_of_lt (by omega)]
      omega
    · next hMore =>
      rw [BitVec.lt_def] at hMore
      have hLe : c.incWire.getD 0#w ≤ c.decWire.getD 0#w := BitVec.le_def.mpr (Nat.le_of_not_lt hMore)
      have hSub := BitVec.toNat_sub_of_le hLe
      rw [BitVec.toNat_sub_of_le (BitVec.le_def.mpr (by omega)), hSub]
      omega
  exact ⟨⟨h.bound, by rw [hCnt]; rfl⟩, hCnt⟩

end ConfigCounter

/-- What happens at a buffered port: a request is let out, the memory takes it, a beat enters
the buffer, and a beat leaves it. -/
inductive BuffEvent where
  | committed (req : MemRequest)
  | issued (req : MemRequest)
  | entered
  | left
  deriving DecidableEq

/-- The beats of the requests that were let out, of those that the memory took, and the beats
that entered and left the buffer. -/
structure Tally where
  committed : Nat
  issued : Nat
  entered : Nat
  left : Nat

namespace Tally

def count (beatShift : Nat) (t : Tally) : BuffEvent → Tally
  | .committed req => { t with committed := t.committed + req.beats beatShift }
  | .issued req => { t with issued := t.issued + req.beats beatShift }
  | .entered => { t with entered := t.entered + 1 }
  | .left => { t with left := t.left + 1 }

def of (beatShift : Nat) (trace : List BuffEvent) : Tally := trace.foldl (count beatShift) ⟨0, 0, 0, 0⟩

theorem of_append (beatShift : Nat) (trace events : List BuffEvent) :
    of beatShift (trace ++ events) = events.foldl (count beatShift) (of beatShift trace) := List.foldl_append

/-- The beats of requests that were let out, less those that left the buffer. -/
def owed (t : Tally) : Nat := t.committed - t.left

end Tally

/-- The beats of the requests in a queue. -/
def queuedBeats (beatShift : Nat) (reqs : List MemRequest) : Nat := (reqs.map (·.beats beatShift)).sum

theorem queuedBeats_cons (beatShift : Nat) (req : MemRequest) (reqs : List MemRequest) :
    queuedBeats beatShift (req :: reqs) = req.beats beatShift + queuedBeats beatShift reqs := rfl

theorem queuedBeats_concat (beatShift : Nat) (reqs : List MemRequest) (req : MemRequest) :
    queuedBeats beatShift (reqs ++ [req]) = queuedBeats beatShift reqs + req.beats beatShift := by
  rw [queuedBeats, List.map_append, List.sum_append, List.map_singleton, List.sum_singleton]
  rfl

/-- `Log` of the bytes of the bus. -/
def busBeatShift (dataWidth : Nat) : Nat := Nat.clog 2 (dataWidth / 8)

/-- The width of the counter, for bursts of 8 bits. -/
def availableWidth (bufferDepth : Nat) : Nat := max (Nat.clog 2 bufferDepth + 1) 8

theorem lt_two_pow_availableWidth (bufferDepth : Nat) : 2 * bufferDepth ≤ 2 ^ availableWidth bufferDepth := by
  have hDepth := Nat.le_pow_clog (b := 2) (by decide) bufferDepth
  have hWidth : 2 ^ (Nat.clog 2 bufferDepth + 1) ≤ 2 ^ availableWidth bufferDepth :=
    Nat.pow_le_pow_right (by decide) (Nat.le_max_left _ _)
  rw [Nat.pow_succ] at hWidth
  omega

theorem toNat_one_available (bufferDepth : Nat) : (1 : BitVec (availableWidth bufferDepth)).toNat = 1 :=
  BitVec.toNat_one (Nat.lt_of_lt_of_le (by decide : 0 < 8) (Nat.le_max_right _ _))

/-- The beats of a request as the counter sees them. -/
def beatsWord (w beatShift : Nat) (req : MemRequest) : BitVec w := (req.burstLen >>> beatShift).setWidth w

theorem toNat_beatsWord (bufferDepth beatShift : Nat) (req : MemRequest) :
    (beatsWord (availableWidth bufferDepth) beatShift req).toNat = req.beats beatShift :=
  BitVec.toNat_setWidth_of_le (Nat.le_max_right _ _)

/-! ### Reading -/

structure MemReaderBuff (bufferDepth : Nat) (Data : Type) where
  readBuffer : Fifo Data bufferDepth
  reqOutstanding : Fifo MemRequest 2
  reqCommitted : Fifo MemRequest 2
  unfulfilled : ConfigCounter (availableWidth bufferDepth)

namespace MemReaderBuff

variable {bufferDepth beatShift : Nat} {Data : Type}

inductive Action (Data : Type) where
  | serverReq (req : MemRequest)
  | serverData
  | clientReq
  | clientData (x : Data)
  | commitReq
  | react

def commitReq (beatShift : Nat) (s : MemReaderBuff bufferDepth Data) :
    Option (MemReaderBuff bufferDepth Data × List BuffEvent) := do
  let (req, reqOutstanding) ← s.reqOutstanding.deq
  let beats := beatsWord (availableWidth bufferDepth) beatShift req
  guard (beats + s.unfulfilled.cnt < BitVec.ofNat (availableWidth bufferDepth) bufferDepth)
  let unfulfilled ← s.unfulfilled.increment beats
  let reqCommitted ← s.reqCommitted.enq req
  pure ({ s with reqOutstanding, unfulfilled, reqCommitted }, [.committed req])

def fire (beatShift : Nat) : Action Data → MemReaderBuff bufferDepth Data →
    Option (MemReaderBuff bufferDepth Data × List BuffEvent)
  | .serverReq req, s => do
      let reqOutstanding ← s.reqOutstanding.enq req
      pure ({ s with reqOutstanding }, [])
  | .serverData, s => do
      let (_, readBuffer) ← s.readBuffer.deq
      let unfulfilled ← s.unfulfilled.decrement 1
      pure ({ s with readBuffer, unfulfilled }, [.left])
  | .clientReq, s => do
      let (req, reqCommitted) ← s.reqCommitted.deq
      pure ({ s with reqCommitted }, [.issued req])
  | .clientData x, s => do
      let readBuffer ← s.readBuffer.enq x
      pure ({ s with readBuffer }, [.entered])
  | .commitReq, s => s.commitReq beatShift
  | .react, s => some ({ s with unfulfilled := s.unfulfilled.react }, [])

def fresh : MemReaderBuff bufferDepth Data := ⟨.empty, .empty, .empty, .fresh⟩

def machine (bufferDepth beatShift : Nat) (Data : Type) :
    Machine (MemReaderBuff bufferDepth Data) (Action Data) BuffEvent :=
  ⟨fun s => s = fresh, fire beatShift⟩

/-- The memory returns the beats of the requests that it took, and no others. -/
def returns (beatShift : Nat) : Machine.Contract (MemReaderBuff bufferDepth Data) (Action Data) BuffEvent
  | trace, _, .clientData _ => (Tally.of beatShift trace).entered < (Tally.of beatShift trace).issued
  | _, _, _ => True

instance (trace : List BuffEvent) (s : MemReaderBuff bufferDepth Data) :
    (action : Action Data) → Decidable (returns beatShift trace s action)
  | .clientData _ => inferInstanceAs (Decidable (_ < _))
  | .serverReq _ | .serverData | .clientReq | .commitReq | .react => .isTrue trivial

/-- Every beat that was let out is in the queue of requests, on its way, in the buffer, or gone. -/
structure Inv (beatShift : Nat) (t : Tally) (s : MemReaderBuff bufferDepth Data) : Prop where
  requests : t.committed = t.issued + queuedBeats beatShift s.reqCommitted.items
  arrived : t.entered ≤ t.issued
  buffered : t.entered = t.left + s.readBuffer.items.length
  level : s.unfulfilled.Level t.owed
  reserved : t.owed ≤ bufferDepth
  register : s.unfulfilled.cnt.toNat ≤ bufferDepth

theorem fresh_inv : Inv beatShift ⟨0, 0, 0, 0⟩ (fresh : MemReaderBuff bufferDepth Data) :=
  ⟨rfl, Nat.le_refl _, rfl, ConfigCounter.fresh_level, Nat.zero_le _, Nat.zero_le _⟩

variable {t : Tally} {trace events : List BuffEvent} {s s' : MemReaderBuff bufferDepth Data} {action : Action Data}

theorem Inv.left_le (h : Inv beatShift t s) : t.left ≤ t.committed := by
  obtain ⟨hRequests, hArrived, hBuffered, -⟩ := h
  omega

section

variable (hShift : 1 ≤ beatShift)

include hShift

/-- The sum in the guard fits the counter, if a beat has at least two bytes. -/
theorem guard_fits (hCnt : s.unfulfilled.cnt.toNat ≤ bufferDepth) (req : MemRequest) :
    req.beats beatShift + s.unfulfilled.cnt.toNat < 2 ^ availableWidth bufferDepth := by
  have hBeats : req.beats beatShift < 2 ^ 7 := by
    rw [MemRequest.beats_eq, Nat.div_lt_iff_lt_mul (Nat.two_pow_pos _)]
    calc req.burstLen.toNat < 2 ^ 7 * 2 ^ 1 := req.burstLen.isLt
      _ ≤ 2 ^ 7 * 2 ^ beatShift := Nat.mul_le_mul_left _ (Nat.pow_le_pow_right (by decide) hShift)
  have hDepth := lt_two_pow_availableWidth bufferDepth
  have hWidth : 2 ^ 8 ≤ 2 ^ availableWidth bufferDepth := Nat.pow_le_pow_right (by decide) (Nat.le_max_right _ _)
  omega

theorem Inv.commitReq (h : Inv beatShift t s) (hFire : s.commitReq beatShift = some (s', events)) :
    Inv beatShift (events.foldl (Tally.count beatShift) t) s' := by
  simp only [MemReaderBuff.commitReq, firing, ConfigCounter.increment_eq_some] at hFire
  obtain ⟨req, outstanding, -, hGuard, _, ⟨hNone, rfl⟩, committed, ⟨-, hCommitted⟩, rfl, rfl⟩ := hFire
  have hFits := guard_fits hShift h.register req
  have hDepth := lt_two_pow_availableWidth bufferDepth
  have hLe := h.level.le_cnt hNone
  -- neither side of the comparison wraps
  rw [BitVec.lt_def, BitVec.toNat_add, BitVec.toNat_ofNat, toNat_beatsWord, Nat.mod_eq_of_lt hFits,
    Nat.mod_eq_of_lt (by omega)] at hGuard
  have hOwed : t.committed + req.beats beatShift - t.left = t.owed + req.beats beatShift :=
    Nat.sub_add_comm h.left_le
  refine ⟨?_, h.arrived, h.buffered, ?_, ?_, h.register⟩
  · show t.committed + req.beats beatShift = t.issued + queuedBeats beatShift committed.items
    rw [hCommitted, queuedBeats_concat, h.requests, Nat.add_assoc]
  · have hNew := h.level.increment (x := beatsWord _ beatShift req) hNone (by rw [toNat_beatsWord]; omega)
    rw [toNat_beatsWord, ← hOwed] at hNew
    exact hNew
  · show t.committed + req.beats beatShift - t.left ≤ bufferDepth
    omega

theorem Inv.step (h : Inv beatShift (Tally.of beatShift trace) s)
    (hOk : returns beatShift trace s action) (hFire : fire beatShift action s = some (s', events)) :
    Inv beatShift (Tally.of beatShift (trace ++ events)) s' := by
  rw [Tally.of_append]
  generalize hTally : Tally.of beatShift trace = t at h
  cases action
  all_goals simp only [fire, firing, ConfigCounter.decrement_eq_some] at hFire
  case serverReq req =>
    obtain ⟨_, -, rfl, rfl⟩ := hFire
    exact { h with }
  case serverData =>
    obtain ⟨x, buffer, hBuffer, _, ⟨hNone, rfl⟩, rfl, rfl⟩ := hFire
    have hBuffered := h.buffered
    have hReserved := h.reserved
    have hRequests := h.requests
    have hArrived := h.arrived
    rw [hBuffer, List.length_cons] at hBuffered
    have hOwed : t.committed - (t.left + 1) = t.owed - 1 := (Nat.sub_sub _ _ _).symm
    refine ⟨h.requests, h.arrived, ?_, ?_, ?_, h.register⟩
    · show t.entered = t.left + 1 + buffer.items.length
      omega
    · have hNew := h.level.decrement (x := 1) hNone (by rw [toNat_one_available, Tally.owed]; omega)
      rw [toNat_one_available, ← hOwed] at hNew
      exact hNew
    · show t.committed - (t.left + 1) ≤ bufferDepth
      omega
  case clientReq =>
    obtain ⟨req, committed, hCommitted, rfl, rfl⟩ := hFire
    refine { h with requests := ?_, arrived := Nat.le_add_right_of_le h.arrived }
    show t.committed = t.issued + req.beats beatShift + queuedBeats beatShift committed.items
    rw [h.requests, hCommitted, queuedBeats_cons, Nat.add_assoc]
  case clientData x =>
    obtain ⟨buffer, ⟨-, hBuffer⟩, rfl, rfl⟩ := hFire
    have hRoom : t.entered < t.issued := by
      rw [← hTally]
      exact hOk
    refine { h with arrived := hRoom, buffered := ?_ }
    show t.entered + 1 = t.left + buffer.items.length
    rw [hBuffer, List.length_append, List.length_singleton, h.buffered, Nat.add_assoc]
  case commitReq => exact h.commitReq hShift hFire
  case react =>
    obtain ⟨rfl, rfl⟩ := hFire
    exact { h with level := h.level.react.1, register := h.level.react.2 ▸ h.reserved }

theorem run_inv (run : (machine bufferDepth beatShift Data).Run (returns beatShift) s trace) :
    Inv beatShift (Tally.of beatShift trace) s :=
  run.invariant (fun trace s => Inv beatShift (Tally.of beatShift trace) s) (fun _ hs => hs ▸ fresh_inv)
    fun _ _ _ _ _ h hOk hFire => h.step hShift hOk hFire

end

/-- What the reservations are worth. The memory still owes `t.committed - t.entered` beats. -/
structure Reserved (beatShift : Nat) (t : Tally) (s : MemReaderBuff bufferDepth Data) : Prop where
  taken : t.left ≤ t.committed
  unfulfilled : s.unfulfilled.Idle → s.unfulfilled.cnt.toNat = t.owed
  /-- The register after this cycle, with the calls that were made in it. -/
  next : s.unfulfilled.react.cnt.toNat = t.owed
  bound : t.owed ≤ bufferDepth ∧ s.unfulfilled.cnt.toNat ≤ bufferDepth
  room : s.readBuffer.items.length + (t.committed - t.entered) ≤ bufferDepth
  sum : ∀ req ∈ s.reqOutstanding.items,
    (beatsWord (availableWidth bufferDepth) beatShift req + s.unfulfilled.cnt).toNat =
      req.beats beatShift + s.unfulfilled.cnt.toNat

theorem one_le_busBeatShift {dataWidth : Nat} (h : 16 ≤ dataWidth) : 1 ≤ busBeatShift dataWidth :=
  Nat.clog_pos (by decide) (by omega)

end MemReaderBuff

/-! ### Writing -/

structure MemWriterBuff (bufferDepth : Nat) (Data : Type) where
  writeBuffer : Fifo Data bufferDepth
  reqOutstanding : Fifo MemRequest 2
  reqCommitted : Fifo MemRequest 2
  doneTags : Fifo (BitVec 6) 2
  available : ConfigCounter (availableWidth bufferDepth)

namespace MemWriterBuff

variable {bufferDepth beatShift : Nat} {Data : Type}

inductive Action (Data : Type) where
  | serverReq (req : MemRequest)
  | serverData (x : Data)
  | serverDone
  | clientReq
  | clientData
  | clientDone (tag : BitVec 6)
  | commitReq
  | react

def commitReq (beatShift : Nat) (s : MemWriterBuff bufferDepth Data) :
    Option (MemWriterBuff bufferDepth Data × List BuffEvent) := do
  let (req, reqOutstanding) ← s.reqOutstanding.deq
  let beats := beatsWord (availableWidth bufferDepth) beatShift req
  guard (beats ≤ s.available.cnt)
  let available ← s.available.decrement beats
  let reqCommitted ← s.reqCommitted.enq req
  pure ({ s with reqOutstanding, available, reqCommitted }, [.committed req])

def fire (beatShift : Nat) : Action Data → MemWriterBuff bufferDepth Data →
    Option (MemWriterBuff bufferDepth Data × List BuffEvent)
  | .serverReq req, s => do
      let reqOutstanding ← s.reqOutstanding.enq req
      pure ({ s with reqOutstanding }, [])
  | .serverData x, s => do
      let writeBuffer ← s.writeBuffer.enq x
      let available ← s.available.increment 1
      pure ({ s with writeBuffer, available }, [.entered])
  | .serverDone, s => do
      let (_, doneTags) ← s.doneTags.deq
      pure ({ s with doneTags }, [])
  | .clientReq, s => do
      let (req, reqCommitted) ← s.reqCommitted.deq
      pure ({ s with reqCommitted }, [.issued req])
  | .clientData, s => do
      let (_, writeBuffer) ← s.writeBuffer.deq
      pure ({ s with writeBuffer }, [.left])
  | .clientDone tag, s => do
      let doneTags ← s.doneTags.enq tag
      pure ({ s with doneTags }, [])
  | .commitReq, s => s.commitReq beatShift
  | .react, s => some ({ s with available := s.available.react }, [])

def fresh : MemWriterBuff bufferDepth Data := ⟨.empty, .empty, .empty, .empty, .fresh⟩

def machine (bufferDepth beatShift : Nat) (Data : Type) :
    Machine (MemWriterBuff bufferDepth Data) (Action Data) BuffEvent :=
  ⟨fun s => s = fresh, fire beatShift⟩

/-- The memory takes data for the requests that it took, and no other. -/
def takes (beatShift : Nat) : Machine.Contract (MemWriterBuff bufferDepth Data) (Action Data) BuffEvent
  | trace, _, .clientData => (Tally.of beatShift trace).left < (Tally.of beatShift trace).issued
  | _, _, _ => True

instance (trace : List BuffEvent) (s : MemWriterBuff bufferDepth Data) :
    (action : Action Data) → Decidable (takes beatShift trace s action)
  | .clientData => inferInstanceAs (Decidable (_ < _))
  | .serverReq _ | .serverData _ | .serverDone | .clientReq | .clientDone _ | .commitReq | .react => .isTrue trivial

/-- Every beat of the buffer belongs to a request that was let out, or is counted. -/
structure Inv (beatShift : Nat) (t : Tally) (s : MemWriterBuff bufferDepth Data) : Prop where
  requests : t.committed = t.issued + queuedBeats beatShift s.reqCommitted.items
  taken : t.left ≤ t.issued
  covered : t.committed ≤ t.entered
  buffered : t.entered = t.left + s.writeBuffer.items.length
  level : s.available.Level (t.entered - t.committed)

theorem fresh_inv : Inv beatShift ⟨0, 0, 0, 0⟩ (fresh : MemWriterBuff bufferDepth Data) :=
  ⟨rfl, Nat.le_refl _, Nat.le_refl _, rfl, ConfigCounter.fresh_level⟩

variable {t : Tally} {trace events : List BuffEvent} {s s' : MemWriterBuff bufferDepth Data} {action : Action Data}

theorem Inv.commitReq (h : Inv beatShift t s) (hFire : s.commitReq beatShift = some (s', events)) :
    Inv beatShift (events.foldl (Tally.count beatShift) t) s' := by
  simp only [MemWriterBuff.commitReq, firing, ConfigCounter.decrement_eq_some] at hFire
  obtain ⟨req, outstanding, -, hGuard, _, ⟨hNone, rfl⟩, committed, ⟨-, hCommitted⟩, rfl, rfl⟩ := hFire
  rw [BitVec.le_def, toNat_beatsWord] at hGuard
  have hLe := h.level.cnt_le hNone
  have hCovered := h.covered
  refine ⟨?_, h.taken, ?_, h.buffered, ?_⟩
  · show t.committed + req.beats beatShift = t.issued + queuedBeats beatShift committed.items
    rw [hCommitted, queuedBeats_concat, h.requests, Nat.add_assoc]
  · show t.committed + req.beats beatShift ≤ t.entered
    omega
  · have hNew := h.level.decrement (x := beatsWord _ beatShift req) hNone (by rw [toNat_beatsWord]; omega)
    rw [toNat_beatsWord, Nat.sub_sub] at hNew
    exact hNew

theorem Inv.step (h : Inv beatShift (Tally.of beatShift trace) s) (hOk : takes beatShift trace s action)
    (hFire : fire beatShift action s = some (s', events)) :
    Inv beatShift (Tally.of beatShift (trace ++ events)) s' := by
  rw [Tally.of_append]
  generalize hTally : Tally.of beatShift trace = t at h
  cases action
  all_goals simp only [fire, firing, ConfigCounter.increment_eq_some] at hFire
  case serverReq _ | serverDone | clientDone _ =>
    casesm* _ ∧ _, ∃ _, _
    subst_vars
    exact { h with }
  case serverData x =>
    obtain ⟨buffer, ⟨hRoom, hBuffer⟩, _, ⟨hNone, rfl⟩, rfl, rfl⟩ := hFire
    have hBuffered := h.buffered
    have hCovered := h.covered
    have hRequests := h.requests
    have hTaken := h.taken
    have hDepth := lt_two_pow_availableWidth bufferDepth
    have hNew := h.level.increment (x := 1) hNone (by rw [toNat_one_available]; omega)
    rw [toNat_one_available, ← Nat.sub_add_comm hCovered] at hNew
    refine ⟨h.requests, h.taken, Nat.le_succ_of_le hCovered, ?_, hNew⟩
    show t.entered + 1 = t.left + buffer.items.length
    rw [hBuffer, List.length_append, List.length_singleton, hBuffered, Nat.add_assoc]
  case clientReq =>
    obtain ⟨req, committed, hCommitted, rfl, rfl⟩ := hFire
    refine { h with requests := ?_, taken := Nat.le_add_right_of_le h.taken }
    show t.committed = t.issued + req.beats beatShift + queuedBeats beatShift committed.items
    rw [h.requests, hCommitted, queuedBeats_cons, Nat.add_assoc]
  case clientData =>
    obtain ⟨x, buffer, hBuffer, rfl, rfl⟩ := hFire
    have hMore : t.left < t.issued := by
      rw [← hTally]
      exact hOk
    refine { h with taken := hMore, buffered := ?_ }
    show t.entered = t.left + 1 + buffer.items.length
    rw [h.buffered, hBuffer, List.length_cons, Nat.add_right_comm, Nat.add_assoc]
  case commitReq => exact h.commitReq hFire
  case react =>
    obtain ⟨rfl, rfl⟩ := hFire
    exact { h with level := h.level.react.1 }

theorem run_inv (run : (machine bufferDepth beatShift Data).Run (takes beatShift) s trace) :
    Inv beatShift (Tally.of beatShift trace) s :=
  run.invariant (fun trace s => Inv beatShift (Tally.of beatShift trace) s) (fun _ hs => hs ▸ fresh_inv)
    fun _ _ _ _ _ => Inv.step

/-- What the buffer has for the requests that were let out. Of these, the ones that the memory
has not taken are in the queue, and `t.issued - t.left` beats are left of the others. -/
structure Buffered (beatShift : Nat) (t : Tally) (s : MemWriterBuff bufferDepth Data) : Prop where
  occupancy : s.available.Idle → s.writeBuffer.items.length = s.available.cnt.toNat + t.owed
  /-- The register after this cycle, with the calls that were made in it. -/
  next : s.writeBuffer.items.length = s.available.react.cnt.toNat + t.owed
  remaining : t.issued - t.left + queuedBeats beatShift s.reqCommitted.items ≤ s.writeBuffer.items.length
  ready : t.left < t.issued → ∃ s', fire beatShift .clientData s = some (s', [.left])

theorem writer_commits_buffered {dataWidth : Nat}
    (run : (machine bufferDepth (busBeatShift dataWidth) Data).Run (takes (busBeatShift dataWidth)) s trace) :
    Buffered (busBeatShift dataWidth) (Tally.of (busBeatShift dataWidth) trace) s := by
  obtain ⟨hRequests, hTaken, hCovered, hBuffered, hLevel⟩ := run_inv run
  refine ⟨fun hIdle => ?_, ?_, by omega, fun hMore => ?_⟩
  · rw [hLevel.cnt_eq hIdle, Tally.owed]
    omega
  · rw [hLevel.react.2, Tally.owed]
    omega
  · obtain ⟨x, buffer, hDeq, -⟩ := Fifo.exists_deq_of_ne_nil
      (List.ne_nil_of_length_pos (show 0 < s.writeBuffer.items.length by omega))
    exact ⟨_, by simp only [fire, hDeq]; rfl⟩

/-- Two beats are buffered, their request is let out in the cycle in which a third beat comes,
and the memory has taken one of them. -/
theorem writer_commits_two_beats : ∃ (s : MemWriterBuff 8 Bool) (trace : List BuffEvent),
    (machine 8 (busBeatShift 16) Bool).Run (takes (busBeatShift 16)) s trace ∧ s.available.cnt = 1 ∧
      Buffered (busBeatShift 16) (Tally.of (busBeatShift 16) trace) s := by
  obtain ⟨s, trace, run, hEnd⟩ := Machine.exists_run (show ((machine 8 (busBeatShift 16) Bool).exec
      (takes (busBeatShift 16)) [.serverReq ⟨0, 0, 4, 0⟩, .serverData true, .react, .serverData false, .react,
        .commitReq, .serverData true, .react, .clientReq, .clientData]
      (fresh, [])).map (fun c => c.1.available.cnt) = some 1 by decide +kernel) rfl
  exact ⟨s, trace, run, hEnd, writer_commits_buffered run⟩

end MemWriterBuff
end Connectal
