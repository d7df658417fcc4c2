import Connectal.Layout.Ring
import Connectal.Marshall.Length

/-! The sending side of a portal in shared memory. The first words of the memory are the
limit, the write index and the read index of a ring of messages, all counted in words.
Each access to the memory is a step of its own. -/
namespace Connectal.Shared

open Layout

/-- The words of the mapped memory. -/
abbrev Memory := Nat → BitVec 32

def sharedLimit : Nat := 0
def sharedWrite : Nat := 1
def sharedRead : Nat := 2
def sharedStart : Nat := 4

/-- An index that is kept in memory. -/
def Memory.index (mem : Memory) (i : Nat) : Nat := (mem i).toNat

/-- The space that is reserved for a message. -/
def reqwords (reqsize : Nat) : Nat := (reqsize / 4 + 1 + 1) &&& 0xfffe

/-- The free words that `busywait_shared` computes. -/
def avail (limit write read : Int) : Int :=
  if write ≥ read then limit - (write - read) - 4 else read - write

def incrementShared (reqsize : Nat) (mem : Memory) (newp : Nat) : Nat :=
  if newp + reqwords reqsize ≥ mem.index sharedLimit then sharedStart else newp

/-- A message for one method. The number of the pad is not the number of a method. -/
structure Message where
  num : BitVec 16
  payload : List (BitVec 32)
  notPad : num ≠ 0xffff#16
  deriving DecidableEq

theorem one_ne_pad : (1 : BitVec 16) ≠ 0xffff#16 := by decide

/-- The words of a message, with its header. -/
def Message.words (m : Message) : Nat := m.payload.length + 1

def Message.hdr (m : Message) : BitVec 32 := messageHeader m.num.toNat m.words

/-- The header of a pad. -/
def padHdr : BitVec 32 := 0xffff0001

def needsPadding (hdr : BitVec 32) : Bool := headerWords hdr % 2 == 1

/-- The words by which `send_shared` goes on. -/
def sendWords (hdr : BitVec 32) : Nat :=
  if needsPadding hdr then (headerWords hdr + 1) &&& 0xfffe else headerWords hdr

/-- What the sender writes for. -/
inductive Kind where
  | payload
  | header
  | pad
  | index
  | terminator
  deriving DecidableEq, Repr

structure Store where
  index : Nat
  value : BitVec 32
  kind : Kind

def Store.apply (mem : Memory) (st : Store) : Memory := Function.update mem st.index st.value

/-- Where a sender stands in the proxy of a method, `busywait_shared` and `send_shared`. -/
inductive SenderPc where
  | idle
  | busywait (m : Message) (addr : Nat)
  | polled (m : Message) (addr write : Nat)
  | marshall (m : Message) (addr i : Nat)
  | header (m : Message)
  | pad (m : Message)
  | publish (m : Message)
  | terminate
  deriving DecidableEq

/-- A proxy takes the address for the payload from `mapchannel_sharedReq`. -/
def callProxy (mem : Memory) (m : Message) : SenderPc → Option SenderPc
  | .idle => some (.busywait m (mem.index sharedWrite + 1))
  | _ => none

/-- One step of the sender, and what it stores. No one else writes the limit and the
write index, so that loading them is no step of its own. -/
def senderStep (reqsize : Nat) (mem : Memory) : SenderPc → Option (SenderPc × Option Store)
  | .idle => none
  | .busywait m addr => some (.polled m addr (mem.index sharedWrite), none)
  | .polled m addr write =>
    if avail (mem.index sharedLimit) write (mem.index sharedRead) > 2 * reqwords reqsize then
      some (.marshall m addr 0, none)
    else some (.busywait m addr, none)
  | .marshall m addr i =>
    match m.payload[i]? with
    | some x => some (.marshall m addr (i + 1), some ⟨addr + i, x, .payload⟩)
    | none => some (.header m, none)
  | .header m =>
    some (if needsPadding m.hdr then .pad m else .publish m,
      some ⟨mem.index sharedWrite, m.hdr, .header⟩)
  | .pad m =>
    some (.publish m, some ⟨mem.index sharedWrite + headerWords m.hdr, padHdr, .pad⟩)
  | .publish m =>
    some (.terminate, some ⟨sharedWrite, BitVec.ofNat 32
      (incrementShared reqsize mem (mem.index sharedWrite + sendWords m.hdr)), .index⟩)
  | .terminate => some (.idle, some ⟨mem.index sharedWrite, 0, .terminator⟩)

/-- The message that a step of the sender publishes. -/
def SenderPc.publishes : SenderPc → List Message
  | .publish m => [m]
  | _ => []

/-- The message of the call that is under way. -/
def SenderPc.pending : SenderPc → List Message
  | .busywait m _ | .polled m _ _ | .marshall m _ _ | .header m | .pad m | .publish m => [m]
  | .idle | .terminate => []

/-- A memory of `size` bytes for messages of up to `reqsize` bytes, where at least one
message fits behind the indices. -/
structure SharedParam where
  reqsize : Nat
  size : BitVec 32
  short : 2 * ((reqsize / 4 + 2) / 2) < 2 ^ 16
  room : 4 + reqwords reqsize < size.toNat / 4

namespace SharedParam

variable (c : SharedParam)

def limit : Nat := c.size.toNat / 4

/-- The ring that the indices describe. -/
def ring : Ring := ⟨sharedStart, reqwords c.reqsize, c.limit, c.room⟩

/-- Messages for which the ring is made. -/
def Fits (m : Message) : Prop := m.words ≤ c.reqsize / 4

instance (m : Message) : Decidable (c.Fits m) := inferInstanceAs (Decidable (_ ≤ _))

end SharedParam

theorem and_fffe {n : Nat} (h : n < 2 ^ 16) : n &&& 0xfffe = 2 * (n / 2) := by
  have hMask : n / 2 &&& (2 ^ 15 - 1) = n / 2 := by
    rw [Nat.and_two_pow_sub_one_eq_mod, Nat.mod_eq_of_lt (by omega)]
  have hHalf : (n &&& 0xfffe) / 2 = n / 2 := by
    rw [Nat.and_div_two]
    exact hMask
  have hEven : (n &&& 0xfffe) % 2 = 0 := by
    rw [Nat.and_mod_two_pow (n := 1)]
    simp
  omega

/-- The cells of a message, with a pad behind an odd number of words. -/
def Message.size (m : Message) : Nat := 2 * ((m.words + 1) / 2)

theorem Message.words_le_size (m : Message) : m.words ≤ m.size := by
  rw [Message.size]
  omega

theorem Message.size_pos (m : Message) : 0 < m.size := by
  rw [Message.size, Message.words]
  omega

namespace SharedParam

variable {c : SharedParam} {m : Message}

@[simp] theorem ring_start (c : SharedParam) : c.ring.start = 4 := rfl

@[simp] theorem ring_reserve (c : SharedParam) : c.ring.reserve = reqwords c.reqsize := rfl

@[simp] theorem ring_limit (c : SharedParam) : c.ring.limit = c.limit := rfl

theorem reqwords_eq (c : SharedParam) : reqwords c.reqsize = 2 * ((c.reqsize / 4 + 2) / 2) := by
  have hShort := c.short
  rw [reqwords, and_fffe (by omega)]

theorem limit_lt (c : SharedParam) : c.limit < 2 ^ 30 := by
  have hSize := c.size.isLt
  rw [limit]
  omega

theorem Fits.words_lt (h : c.Fits m) : m.words + 1 < 2 ^ 16 := by
  have hShort := c.short
  rw [Fits] at h
  omega

theorem Fits.size_le (h : c.Fits m) : m.size ≤ c.ring.reserve := by
  rw [Fits] at h
  rw [ring_reserve, c.reqwords_eq, Message.size]
  omega

theorem Fits.headerWords_hdr (h : c.Fits m) : headerWords m.hdr = m.words := by
  have hWords := h.words_lt
  rw [Message.hdr, headerWords_messageHeader, Nat.mod_eq_of_lt (by omega)]

theorem Fits.needsPadding_hdr (h : c.Fits m) : needsPadding m.hdr = (m.words % 2 == 1) := by
  rw [needsPadding, h.headerWords_hdr]

theorem Fits.sendWords_hdr (h : c.Fits m) : sendWords m.hdr = m.size := by
  have hWords := h.words_lt
  rw [sendWords, h.needsPadding_hdr, h.headerWords_hdr, and_fffe hWords, Message.size]
  split
  · rfl
  · next hEven =>
    rw [beq_iff_eq] at hEven
    omega

theorem Fits.num_hdr (h : c.Fits m) : (m.hdr >>> 16).setWidth 16 = m.num := by
  have hWords := h.words_lt
  rw [Message.hdr, messageHeader_number (by omega), BitVec.ofNat_toNat]
  exact BitVec.setWidth_eq m.num

/-- The wrap of the code is the wrap of the ring. -/
theorem incrementShared_eq {mem : Memory} (hLimit : mem.index sharedLimit = c.limit) (p n : Nat) :
    incrementShared c.reqsize mem (p + n) = c.ring.next p n := by
  rw [incrementShared, hLimit]
  rfl

/-- The test of `busywait_shared` asks for the room of two messages. -/
theorem avail_iff (read write : Nat) :
    avail c.limit write read > 2 * reqwords c.reqsize ↔ c.ring.HasRoom read write := by
  rw [avail, Ring.HasRoom, ring_limit, ring_reserve, ring_start]
  split_ifs <;> omega

end SharedParam

/-- A ring of twenty words for messages of up to three words. -/
def ringOfTwenty : SharedParam := ⟨12, 80, by decide, by decide⟩

def twoWords : Message := ⟨1, [7, 8], one_ne_pad⟩

end Connectal.Shared
