import Connectal.Memory.TagGen

/-! Requests, data beats and error codes of `MemTypes.bsv`, `ConnectalMemory.bsv`
and the records that `MemServerInternal.bsv` keeps in its queues. -/
namespace Connectal

/-- Error codes sent from the DMA engines and the address translation. -/
inductive DmaErrorType where
  | none
  | sglIdOutOfRangeR
  | sglIdOutOfRangeW
  | mmuOutOfRangeR
  | mmuOutOfRangeW
  | offsetOutOfRange
  | sglIdInvalid
  deriving DecidableEq, Repr

/-- Memory request with a virtual address: an offset in a scatter list. -/
structure MemRequest where
  sglId : BitVec 32
  offset : BitVec 44
  burstLen : BitVec 8
  tag : BitVec 6
  deriving DecidableEq, Repr

/-- Memory request with a physical address. -/
structure PhysMemRequest (addrWidth : Nat) where
  addr : BitVec addrWidth
  burstLen : BitVec 8
  tag : BitVec 6
  deriving DecidableEq, Repr

/-- One beat of a burst. -/
structure MemData (Data : Type) where
  data : Data
  tag : BitVec 6
  last : Bool
  deriving DecidableEq, Repr

/-- Request to an address translation server. -/
structure ReqTup where
  id : BitVec 5
  off : BitVec 44
  deriving DecidableEq, Repr

structure LRec (numClients : Nat) where
  req : MemRequest
  client : Fin numClients
  deriving DecidableEq, Repr

structure RRec (numClients addrWidth : Nat) where
  req : MemRequest
  pa : BitVec addrWidth
  renameTag : BitVec 6
  client : Fin numClients
  deriving DecidableEq, Repr

structure DRec (numClients : Nat) where
  req : MemRequest
  renameTag : BitVec 6
  client : Fin numClients
  last : Bool
  deriving DecidableEq, Repr

structure RResp (numClients : Nat) where
  origTag : BitVec 6
  client : Fin numClients
  deriving DecidableEq, Repr

/-- The error report of the internal servers. -/
structure DmaError where
  errorType : DmaErrorType
  pref : BitVec 32
  deriving DecidableEq, Repr

namespace MemRequest

/-- The address translation unit that a request names. -/
def mmusel (req : MemRequest) : BitVec 16 := req.sglId.extractLsb' 16 16

/-- The scatter list number does not fit the tables of a translation unit. -/
def sglidOutofrange (req : MemRequest) : Bool := 32 ≤ (req.sglId.extractLsb' 0 16).toNat

/-- The request as the translation unit sees it. -/
def reqTup (req : MemRequest) : ReqTup := ⟨req.sglId.setWidth 5, req.offset⟩

/-- Number of beats of a burst on a bus of `2 ^ beatShift` bytes. -/
def beats (beatShift : Nat) (req : MemRequest) : Nat := (req.burstLen >>> beatShift).toNat

/-- A burst is a positive multiple of the bus width. -/
def WellFormed (beatShift : Nat) (req : MemRequest) : Prop :=
  0 < req.burstLen.toNat ∧ 2 ^ beatShift ∣ req.burstLen.toNat

instance (beatShift : Nat) (req : MemRequest) : Decidable (req.WellFormed beatShift) :=
  inferInstanceAs (Decidable (_ ∧ _))

theorem beats_eq (beatShift : Nat) (req : MemRequest) :
    req.beats beatShift = req.burstLen.toNat / 2 ^ beatShift := by
  simp [beats, Nat.shiftRight_eq_div_pow]

variable {req : MemRequest} {beatShift : Nat}

section

variable (h : req.WellFormed beatShift)

include h

theorem WellFormed.beats_mul : req.beats beatShift * 2 ^ beatShift = req.burstLen.toNat := by
  rw [beats_eq]
  exact Nat.div_mul_cancel h.2

theorem WellFormed.beats_pos : 0 < req.beats beatShift := by
  rw [beats_eq]
  exact Nat.div_pos (Nat.le_of_dvd h.1 h.2) (Nat.two_pow_pos beatShift)

theorem WellFormed.beatShift_lt : beatShift < 8 := by
  have hLe := Nat.le_of_dvd h.1 h.2
  exact (Nat.pow_lt_pow_iff_right (by decide)).mp (Nat.lt_of_le_of_lt hLe req.burstLen.isLt)

theorem WellFormed.beats_lt : req.beats beatShift < 2 ^ (8 - beatShift) := by
  rw [beats_eq, Nat.div_lt_iff_lt_mul (Nat.two_pow_pos beatShift), ← Nat.pow_add,
    Nat.sub_add_cancel h.beatShift_lt.le]
  exact req.burstLen.isLt

theorem WellFormed.single :
    (req.burstLen == BitVec.ofNat 8 (2 ^ beatShift)) = decide (req.beats beatShift = 1) := by
  have hMul := h.beats_mul
  have hPos := h.beats_pos
  have hLt := req.burstLen.isLt
  have hWidth : 2 ^ beatShift < 2 ^ 8 :=
    Nat.lt_of_le_of_lt (hMul ▸ Nat.le_mul_of_pos_left _ hPos) hLt
  rw [Bool.eq_iff_iff, beq_iff_eq, decide_eq_true_eq, ← BitVec.toNat_inj, BitVec.toNat_ofNat,
    Nat.mod_eq_of_lt hWidth, ← hMul]
  constructor
  · intro he
    exact Nat.eq_of_mul_eq_mul_right (Nat.two_pow_pos beatShift) (by rw [he, Nat.one_mul])
  · intro he
    rw [he, Nat.one_mul]

end

end MemRequest

/-- The record of a physical request that is kept for its data beats. A burst
of one bus word is marked as its own last beat. -/
def RRec.dreq {numClients addrWidth : Nat} (beatShift : Nat) (r : RRec numClients addrWidth) :
    DRec numClients :=
  ⟨r.req, r.renameTag, r.client, r.req.burstLen == BitVec.ofNat 8 (2 ^ beatShift)⟩

end Connectal
