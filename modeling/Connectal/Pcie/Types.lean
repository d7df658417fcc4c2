import Connectal.Layout.Frame
import Mathlib.Data.BitVec
import Mathlib.Tactic.IntervalCases

/-! Transaction level packets: beats of 8 or 16 bytes, and the headers that their
first beats hold. The layout of the headers is that of the PCIe specification,
most significant field first. -/
namespace Connectal.Pcie

open Layout

/-- One beat of a packet. -/
structure TLPData (bytes : Nat) where
  sof : Bool
  eof : Bool
  hit : BitVec 7
  be : BitVec bytes
  data : BitVec (8 * bytes)
  deriving DecidableEq, Repr

namespace TLPData

def defaultValue {bytes : Nat} : TLPData bytes := ⟨false, false, 0, 0, 0⟩

/-- The marks of the first and the last beat. -/
def frame (bytes : Nat) : Frame (TLPData bytes) := ⟨sof, eof⟩

end TLPData

/-- The bytes of a word in the other order. -/
def byteSwap (w : BitVec 32) : BitVec 32 :=
  w.extractLsb' 0 8 ++ (w.extractLsb' 8 8 ++ (w.extractLsb' 16 8 ++ w.extractLsb' 24 8))

inductive TLPPacketFormat where
  | memRead3dwNoData
  | memRead4dwNoData
  | memWrite3dwData
  | memWrite4dwData
  deriving DecidableEq, Repr

namespace TLPPacketFormat

def pack : TLPPacketFormat → BitVec 2
  | memRead3dwNoData => 0
  | memRead4dwNoData => 1
  | memWrite3dwData => 2
  | memWrite4dwData => 3

def unpack (b : BitVec 2) : TLPPacketFormat :=
  if b = 0 then memRead3dwNoData
  else if b = 1 then memRead4dwNoData
  else if b = 2 then memWrite3dwData
  else memWrite4dwData

theorem unpack_pack (f : TLPPacketFormat) : unpack f.pack = f := by
  cases f <;> rfl

end TLPPacketFormat

/-- The packet type of memory requests. -/
def memReadWrite : BitVec 5 := 0

/-- The packet type of completions. -/
def completion : BitVec 5 := 10

/-- A memory request with a 32 bit address. Its beat has room for one data word. -/
structure TLPMemoryIO3DWHeader where
  format : TLPPacketFormat
  pkttype : BitVec 5
  tclass : BitVec 3
  digest : BitVec 1
  poison : BitVec 1
  relaxed : BitVec 1
  nosnoop : BitVec 1
  length : BitVec 10
  reqid : BitVec 16
  tag : BitVec 8
  lastbe : BitVec 4
  firstbe : BitVec 4
  addr : BitVec 30
  data : BitVec 32
  deriving DecidableEq, Repr

/-- A memory request with a 64 bit address. -/
structure TLPMemory4DWHeader where
  format : TLPPacketFormat
  pkttype : BitVec 5
  tclass : BitVec 3
  digest : BitVec 1
  poison : BitVec 1
  relaxed : BitVec 1
  nosnoop : BitVec 1
  length : BitVec 10
  reqid : BitVec 16
  tag : BitVec 8
  lastbe : BitVec 4
  firstbe : BitVec 4
  addr : BitVec 62
  deriving DecidableEq, Repr

/-- The answer to a read request, with its first data word. -/
structure TLPCompletionHeader where
  format : TLPPacketFormat
  pkttype : BitVec 5
  tclass : BitVec 3
  digest : BitVec 1
  poison : BitVec 1
  relaxed : BitVec 1
  nosnoop : BitVec 1
  length : BitVec 10
  cmplid : BitVec 16
  cstatus : BitVec 3
  bytecntmod : BitVec 1
  bytecount : BitVec 12
  reqid : BitVec 16
  tag : BitVec 8
  loweraddr : BitVec 7
  data : BitVec 32
  deriving DecidableEq, Repr

theorem extractLsb_append_high {v w : Nat} (x : BitVec v) (y : BitVec w) :
    (x ++ y).extractLsb' w v = x := by
  rw [BitVec.extractLsb'_append_eq_of_le (Nat.le_refl _), Nat.sub_self, BitVec.extractLsb'_eq_self]

theorem extractLsb_append_low {v w start len : Nat} (x : BitVec v) (y : BitVec w)
    (h : start + len ≤ w) : (x ++ y).extractLsb' start len = y.extractLsb' start len :=
  BitVec.extractLsb'_append_eq_of_add_le h

namespace TLPMemoryIO3DWHeader

def defaultValue : TLPMemoryIO3DWHeader :=
  ⟨.memRead3dwNoData, memReadWrite, 0, 0, 0, 0, 0, 0, 0, 0, 0, 0, 0, 0⟩

def pack (h : TLPMemoryIO3DWHeader) : BitVec 128 :=
  0#1 ++ (h.format.pack ++ (h.pkttype ++ (0#1 ++ (h.tclass ++ (0#4 ++ (h.digest ++ (h.poison ++
  (h.relaxed ++ (h.nosnoop ++ (0#2 ++ (h.length ++ (h.reqid ++ (h.tag ++ (h.lastbe ++ (h.firstbe ++
  (h.addr ++ (0#2 ++ h.data)))))))))))))))))

def unpack (d : BitVec 128) : TLPMemoryIO3DWHeader where
  format := .unpack (d.extractLsb' 125 2)
  pkttype := d.extractLsb' 120 5
  tclass := d.extractLsb' 116 3
  digest := d.extractLsb' 111 1
  poison := d.extractLsb' 110 1
  relaxed := d.extractLsb' 109 1
  nosnoop := d.extractLsb' 108 1
  length := d.extractLsb' 96 10
  reqid := d.extractLsb' 80 16
  tag := d.extractLsb' 72 8
  lastbe := d.extractLsb' 68 4
  firstbe := d.extractLsb' 64 4
  addr := d.extractLsb' 34 30
  data := d.extractLsb' 0 32

theorem unpack_pack (h : TLPMemoryIO3DWHeader) : unpack h.pack = h := by
  obtain ⟨format, _⟩ := h
  simp only [unpack, pack, mk.injEq]
  refine ⟨?_, ?_, ?_, ?_, ?_, ?_, ?_, ?_, ?_, ?_, ?_, ?_, ?_, ?_⟩ <;>
    repeat rw [extractLsb_append_low _ _ (by decide)]
  · rw [extractLsb_append_high, TLPPacketFormat.unpack_pack]
  all_goals first | exact extractLsb_append_high _ _ | exact BitVec.extractLsb'_eq_self

end TLPMemoryIO3DWHeader

namespace TLPMemory4DWHeader

def defaultValue : TLPMemory4DWHeader :=
  ⟨.memRead4dwNoData, memReadWrite, 0, 0, 0, 0, 0, 0, 0, 0, 0, 0, 0⟩

def pack (h : TLPMemory4DWHeader) : BitVec 128 :=
  0#1 ++ (h.format.pack ++ (h.pkttype ++ (0#1 ++ (h.tclass ++ (0#4 ++ (h.digest ++ (h.poison ++
  (h.relaxed ++ (h.nosnoop ++ (0#2 ++ (h.length ++ (h.reqid ++ (h.tag ++ (h.lastbe ++ (h.firstbe ++
  (h.addr ++ 0#2))))))))))))))))

def unpack (d : BitVec 128) : TLPMemory4DWHeader where
  format := .unpack (d.extractLsb' 125 2)
  pkttype := d.extractLsb' 120 5
  tclass := d.extractLsb' 116 3
  digest := d.extractLsb' 111 1
  poison := d.extractLsb' 110 1
  relaxed := d.extractLsb' 109 1
  nosnoop := d.extractLsb' 108 1
  length := d.extractLsb' 96 10
  reqid := d.extractLsb' 80 16
  tag := d.extractLsb' 72 8
  lastbe := d.extractLsb' 68 4
  firstbe := d.extractLsb' 64 4
  addr := d.extractLsb' 2 62

theorem unpack_pack (h : TLPMemory4DWHeader) : unpack h.pack = h := by
  obtain ⟨format, _⟩ := h
  simp only [unpack, pack, mk.injEq]
  refine ⟨?_, ?_, ?_, ?_, ?_, ?_, ?_, ?_, ?_, ?_, ?_, ?_, ?_⟩ <;>
    repeat rw [extractLsb_append_low _ _ (by decide)]
  · rw [extractLsb_append_high, TLPPacketFormat.unpack_pack]
  all_goals exact extractLsb_append_high _ _

end TLPMemory4DWHeader

namespace TLPCompletionHeader

def defaultValue : TLPCompletionHeader :=
  ⟨.memRead3dwNoData, completion, 0, 0, 0, 0, 0, 0, 0, 0, 0, 0, 0, 0, 0, 0⟩

def pack (h : TLPCompletionHeader) : BitVec 128 :=
  0#1 ++ (h.format.pack ++ (h.pkttype ++ (0#1 ++ (h.tclass ++ (0#4 ++ (h.digest ++ (h.poison ++
  (h.relaxed ++ (h.nosnoop ++ (0#2 ++ (h.length ++ (h.cmplid ++ (h.cstatus ++ (h.bytecntmod ++
  (h.bytecount ++ (h.reqid ++ (h.tag ++ (0#1 ++ (h.loweraddr ++ h.data)))))))))))))))))))

def unpack (d : BitVec 128) : TLPCompletionHeader where
  format := .unpack (d.extractLsb' 125 2)
  pkttype := d.extractLsb' 120 5
  tclass := d.extractLsb' 116 3
  digest := d.extractLsb' 111 1
  poison := d.extractLsb' 110 1
  relaxed := d.extractLsb' 109 1
  nosnoop := d.extractLsb' 108 1
  length := d.extractLsb' 96 10
  cmplid := d.extractLsb' 80 16
  cstatus := d.extractLsb' 77 3
  bytecntmod := d.extractLsb' 76 1
  bytecount := d.extractLsb' 64 12
  reqid := d.extractLsb' 48 16
  tag := d.extractLsb' 40 8
  loweraddr := d.extractLsb' 32 7
  data := d.extractLsb' 0 32

theorem unpack_pack (h : TLPCompletionHeader) : unpack h.pack = h := by
  obtain ⟨format, _⟩ := h
  simp only [unpack, pack, mk.injEq]
  refine ⟨?_, ?_, ?_, ?_, ?_, ?_, ?_, ?_, ?_, ?_, ?_, ?_, ?_, ?_, ?_, ?_⟩ <;>
    repeat rw [extractLsb_append_low _ _ (by decide)]
  · rw [extractLsb_append_high, TLPPacketFormat.unpack_pack]
  all_goals first | exact extractLsb_append_high _ _ | exact BitVec.extractLsb'_eq_self

end TLPCompletionHeader
/-! The words of a beat. -/
namespace TLPData

/-- Four words, the first one on top. -/
def ofWords (w₀ w₁ w₂ w₃ : BitVec 32) : BitVec (8 * 16) := w₀ ++ (w₁ ++ (w₂ ++ w₃))

def words (b : TLPData 16) : List (BitVec 32) :=
  [b.data.extractLsb' 96 32, b.data.extractLsb' 64 32, b.data.extractLsb' 32 32, b.data.extractLsb' 0 32]

/-- The number of words, from the top, that the byte enables mark as valid. -/
def count (b : TLPData 16) : Nat :=
  if b.be = 0xf000 then 1
  else if b.be = 0xff00 then 2
  else if b.be = 0xfff0 then 3
  else if b.be = 0xffff then 4
  else 0

/-- The words that the byte enables mark as valid. -/
def valid (b : TLPData 16) : List (BitVec 32) := b.words.take b.count

theorem words_ofWords {b : TLPData 16} {w₀ w₁ w₂ w₃ : BitVec 32} (h : b.data = ofWords w₀ w₁ w₂ w₃) :
    b.words = [w₀, w₁, w₂, w₃] := by
  simp only [words, h, ofWords, List.cons.injEq, and_true]
  refine ⟨?_, ?_, ?_, ?_⟩ <;> repeat rw [extractLsb_append_low _ _ (by decide)]
  all_goals first | exact extractLsb_append_high _ _ | exact BitVec.extractLsb'_eq_self

end TLPData

/-- The byte enables of a beat with this many words. -/
def tlpBe (n : Nat) : BitVec 16 :=
  if n = 0 then 0
  else if n = 1 then 0xf000
  else if n = 2 then 0xff00
  else if n = 3 then 0xfff0
  else 0xffff

/-- The data of a beat behind the header: the words of the queue, byte-swapped. The
lanes without a word hold whatever the queue shows there. -/
def beatData (ws : List (BitVec 32)) (stale : Fin 4 → BitVec 32) : BitVec (8 * 16) :=
  TLPData.ofWords (byteSwap (ws.getD 0 (stale 0))) (byteSwap (ws.getD 1 (stale 1)))
    (byteSwap (ws.getD 2 (stale 2))) (byteSwap (ws.getD 3 (stale 3)))

theorem count_tlpBe {b : TLPData 16} {n : Nat} (hBe : b.be = tlpBe n) (hn : n ≤ 4) : b.count = n := by
  rw [TLPData.count, hBe]
  interval_cases n <;> rfl

theorem valid_beatData {b : TLPData 16} {ws : List (BitVec 32)} {stale : Fin 4 → BitVec 32}
    (hData : b.data = beatData ws stale) (hBe : b.be = tlpBe ws.length) (hLength : ws.length ≤ 4) :
    b.valid = ws.map byteSwap := by
  rw [TLPData.valid, TLPData.words_ofWords hData, count_tlpBe hBe hLength]
  clear hData hBe
  match ws, hLength with
  | [], _ => simp
  | [_], _ => simp
  | [_, _], _ => simp
  | [_, _, _], _ => simp
  | [_, _, _, _], _ => simp

end Connectal.Pcie
