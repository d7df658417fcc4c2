import Connectal.Pcie.Types
import Connectal.Rules.Batch
import Connectal.Rules.Machine

/-! `mkPcieGearbox` of `PcieGearbox.bsv`: beats of 8 bytes at twice the clock rate
become beats of 16 bytes, and back. The gearboxes of the library are queues that
hand out or take two beats in one action. -/
namespace Connectal.Pcie

open Layout Rules
open TLPData (frame)

/-- Two beats of 8 bytes make one of 16 bytes. -/
def combine (a b : TLPData 8) : TLPData 16 :=
  ⟨a.sof, b.eof, a.hit, a.be ++ b.be, a.data ++ b.data⟩

/-- The two halves of a beat of 16 bytes. -/
def split (x : TLPData 16) : List (TLPData 8) :=
  [⟨x.sof, if x.be.extractLsb' 0 8 = 0 then x.eof else false, x.hit, x.be.extractLsb' 8 8,
      x.data.extractLsb' 64 64⟩,
    ⟨false, x.eof, x.hit, x.be.extractLsb' 0 8, x.data.extractLsb' 0 64⟩]

/-- The beat that fills up a packet with an odd number of beats. -/
def invalid : TLPData 8 := { TLPData.defaultValue with eof := true, be := 0 }

structure PcieGearbox (rxDepth txDepth : Nat) where
  fifoRxData : Fifo (TLPData 8) rxDepth
  rOddBeat : Bool
  rSendInvalid : Bool
  inFifo : Fifo (TLPData 8) 2
  outFifo : Fifo (TLPData 8) 2
  fifoTxData : Fifo (TLPData 8) txDepth

namespace PcieGearbox

variable {rxDepth txDepth : Nat}

/-- What goes in and out of the module, on the side of the endpoint and on the
side of the design. -/
inductive Event where
  | received (b : TLPData 8)
  | combined (x : TLPData 16)
  | returned (x : TLPData 16)
  | sent (b : TLPData 8)
  deriving DecidableEq

def received? : Event → Option (TLPData 8)
  | .received b => some b
  | _ => none

def combined? : Event → Option (TLPData 16)
  | .combined x => some x
  | _ => none

def returned? : Event → Option (TLPData 16)
  | .returned x => some x
  | _ => none

def sent? : Event → Option (TLPData 8)
  | .sent b => some b
  | _ => none

inductive Action where
  | responsePut (b : TLPData 8)
  | processIncomingPackets1
  | sendInvalidPackets1
  | pciResponseGet
  | pciRequestPut (x : TLPData 16)
  | processOutgoingPackets
  | requestGet

def responsePut (b : TLPData 8) (s : PcieGearbox rxDepth txDepth) :
    Option (PcieGearbox rxDepth txDepth × List Event) := do
  let inFifo ← s.inFifo.enq b
  pure ({ s with inFifo }, [.received b])

def processIncomingPackets1 (s : PcieGearbox rxDepth txDepth) :
    Option (PcieGearbox rxDepth txDepth × List Event) := do
  guard (s.rSendInvalid = false)
  let (data, inFifo) ← s.inFifo.deq
  let fifoRxData ← s.fifoRxData.enq data
  pure ({ s with
    inFifo, fifoRxData
    rOddBeat := !s.rOddBeat
    rSendInvalid := !s.rOddBeat && data.eof }, [])

def sendInvalidPackets1 (s : PcieGearbox rxDepth txDepth) :
    Option (PcieGearbox rxDepth txDepth × List Event) := do
  guard (s.rSendInvalid = true)
  let fifoRxData ← s.fifoRxData.enq invalid
  pure ({ s with fifoRxData, rOddBeat := !s.rOddBeat, rSendInvalid := false }, [])

def pciResponseGet (s : PcieGearbox rxDepth txDepth) :
    Option (PcieGearbox rxDepth txDepth × List Event) := do
  let (pair, fifoRxData) ← s.fifoRxData.deqN 2
  match pair with
  | [a, b] => pure ({ s with fifoRxData }, [.combined (combine a b)])
  | _ => none

def pciRequestPut (x : TLPData 16) (s : PcieGearbox rxDepth txDepth) :
    Option (PcieGearbox rxDepth txDepth × List Event) := do
  let fifoTxData ← s.fifoTxData.enqAll (split x)
  pure ({ s with fifoTxData }, [.returned x])

/-- Beats without a valid byte are filtered out. -/
def processOutgoingPackets (s : PcieGearbox rxDepth txDepth) :
    Option (PcieGearbox rxDepth txDepth × List Event) := do
  let (temp, fifoTxData) ← s.fifoTxData.deq
  let outFifo ← s.outFifo.enqIf (temp.be ≠ 0) temp
  pure ({ s with fifoTxData, outFifo }, [])

def requestGet (s : PcieGearbox rxDepth txDepth) :
    Option (PcieGearbox rxDepth txDepth × List Event) := do
  let (b, outFifo) ← s.outFifo.deq
  pure ({ s with outFifo }, [.sent b])

def machine (rxDepth txDepth : Nat) : Machine (PcieGearbox rxDepth txDepth) Action Event where
  init s := s = ⟨.empty, false, false, .empty, .empty, .empty⟩
  fire
    | .responsePut b => responsePut b
    | .processIncomingPackets1 => processIncomingPackets1
    | .sendInvalidPackets1 => sendInvalidPackets1
    | .pciResponseGet => pciResponseGet
    | .pciRequestPut x => pciRequestPut x
    | .processOutgoingPackets => processOutgoingPackets
    | .requestGet => requestGet

/-- Every beat has valid bytes, and the same `hit` as the packet that it belongs to. -/
def Accepts (before : List (TLPData 8)) (b : TLPData 8) : Prop :=
  (frame 8).Admits before b ∧ b.be ≠ 0 ∧ ∀ c ∈ ((frame 8).cut before).2, c.hit = b.hit

instance (before : List (TLPData 8)) (b : TLPData 8) : Decidable (Accepts before b) :=
  inferInstanceAs (Decidable (_ ∧ _ ∧ _))

/-- Packets come in, and the design sends back the beats that it gets. -/
def Loopback (trace : List Event) (_ : PcieGearbox rxDepth txDepth) : Action → Prop
  | .responsePut b => Accepts (trace.filterMap received?) b
  | .pciRequestPut x =>
    (trace.filterMap combined?)[(trace.filterMap returned?).length]? = some x
  | _ => True

instance (trace : List Event) (s : PcieGearbox rxDepth txDepth) (action : Action) :
    Decidable (Loopback trace s action) :=
  match action with
  | .responsePut b => inferInstanceAs (Decidable (Accepts (trace.filterMap received?) b))
  | .pciRequestPut _ => inferInstanceAs (Decidable (_ = _))
  | .processIncomingPackets1 | .sendInvalidPackets1 | .pciResponseGet | .processOutgoingPackets
  | .requestGet => .isTrue trivial

end PcieGearbox

/-- The beats of 16 bytes that whole pairs of beats make. -/
def pairUp : List (TLPData 8) → List (TLPData 16)
  | a :: b :: rest => combine a b :: pairUp rest
  | _ => []

/-- A packet that is filled up to an even number of beats. -/
def pad : List (TLPData 8) → List (TLPData 8)
  | a :: b :: rest => a :: b :: pad rest
  | [a] => [a, invalid]
  | [] => []

/-- The beats of 16 bytes of one packet. -/
def wide (p : List (TLPData 8)) : List (TLPData 16) := pairUp (pad p)

/-- The beats of 16 bytes of a stream. No beat of them has bytes of two packets. -/
def wideStream (stream : List (TLPData 8)) : List (TLPData 16) :=
  ((frame 8).cut stream).1.flatMap wide ++ pairUp ((frame 8).cut stream).2

/-- A stream as the receiving gearbox gets it. -/
def padded (stream : List (TLPData 8)) : List (TLPData 8) :=
  ((frame 8).cut stream).1.flatMap pad ++ ((frame 8).cut stream).2

/-- The halves that have a valid byte. -/
def narrow (xs : List (TLPData 16)) : List (TLPData 8) := (xs.flatMap split).filter (·.be ≠ 0)

section Pairs

variable {a b : TLPData 8} {p l m : List (TLPData 8)}

theorem combine_be_high (a b : TLPData 8) : (combine a b).be.extractLsb' 8 8 = a.be :=
  extractLsb_append_high a.be b.be

theorem combine_be_low (a b : TLPData 8) : (combine a b).be.extractLsb' 0 8 = b.be :=
  (extractLsb_append_low a.be b.be (by decide)).trans BitVec.extractLsb'_eq_self

theorem combine_data_high (a b : TLPData 8) : (combine a b).data.extractLsb' 64 64 = a.data :=
  extractLsb_append_high a.data b.data

theorem combine_data_low (a b : TLPData 8) : (combine a b).data.extractLsb' 0 64 = b.data :=
  (extractLsb_append_low a.data b.data (by decide)).trans BitVec.extractLsb'_eq_self

/-- What splitting makes of two combined beats. -/
theorem split_combine (a b : TLPData 8) :
    split (combine a b) = [{ a with eof := if b.be = 0 then b.eof else false },
      { b with sof := false, hit := a.hit }] := by
  simp only [split, combine_be_high, combine_be_low, combine_data_high, combine_data_low]
  rfl

/-- Two beats of one packet. -/
theorem narrow_pair (hEof : a.eof = false) (hSof : b.sof = false) (hHit : a.hit = b.hit)
    (ha : a.be ≠ 0) (hb : b.be ≠ 0) (xs : List (TLPData 16)) :
    narrow (combine a b :: xs) = a :: b :: narrow xs := by
  have hSplit : split (combine a b) = [a, b] := by
    rw [split_combine, if_neg hb]
    cases a
    cases b
    cases hEof
    cases hSof
    cases hHit
    rfl
  rw [narrow, List.flatMap_cons, hSplit, List.cons_append, List.cons_append, List.nil_append,
    List.filter_cons, List.filter_cons, if_pos (decide_eq_true ha), if_pos (decide_eq_true hb)]
  rfl

theorem narrow_invalid (hEof : a.eof = true) (ha : a.be ≠ 0) (xs : List (TLPData 16)) :
    narrow (combine a invalid :: xs) = a :: narrow xs := by
  have hSplit : split (combine a invalid) = [a, { invalid with sof := false, hit := a.hit }] := by
    cases a
    cases hEof
    rw [split_combine]
    rfl
  rw [narrow, List.flatMap_cons, hSplit, List.cons_append, List.cons_append, List.nil_append,
    List.filter_cons, if_pos (decide_eq_true ha)]
  rfl

theorem narrow_append (xs ys : List (TLPData 16)) : narrow (xs ++ ys) = narrow xs ++ narrow ys := by
  simp [narrow]

theorem narrow_mono {xs ys : List (TLPData 16)} (h : xs <+: ys) : narrow xs <+: narrow ys := by
  obtain ⟨zs, rfl⟩ := h
  rw [narrow_append]
  exact List.prefix_append ..

/-- Beats of one packet from some beat on: only the last one of them ends it, and
only the first one may start it. -/
def Stretch : List (TLPData 8) → Prop
  | [] => True
  | [a] => a.be ≠ 0
  | a :: b :: rest => a.be ≠ 0 ∧ a.eof = false ∧ b.sof = false ∧ a.hit = b.hit ∧ Stretch (b :: rest)

theorem Stretch.tail (h : Stretch (a :: l)) : Stretch l := by
  cases l with
  | nil => trivial
  | cons b l => exact h.2.2.2.2

theorem Stretch.valid (h : Stretch (a :: l)) : a.be ≠ 0 := by
  cases l with
  | nil => exact h
  | cons b l => exact h.1

theorem Stretch.concat (h : Stretch l) (hOpen : ∀ c ∈ l, c.eof = false ∧ c.hit = b.hit)
    (hSof : l ≠ [] → b.sof = false) (hb : b.be ≠ 0) : Stretch (l ++ [b]) := by
  induction l with
  | nil => exact hb
  | cons a l ih =>
    obtain ⟨ha, hl⟩ := List.forall_mem_cons.mp hOpen
    have hSof' := hSof (List.cons_ne_nil _ _)
    cases l with
    | nil => exact ⟨h.valid, ha.1, hSof', ha.2, hb⟩
    | cons c l =>
      exact ⟨h.valid, h.2.1, h.2.2.1, h.2.2.2.1, ih h.tail hl fun _ => hSof'⟩

theorem pairUp_short (h : ∀ a b rest, l = a :: b :: rest → False) : pairUp l = [] := by
  rw [pairUp.eq_def]
  split
  · next a b rest => exact (h a b rest rfl).elim
  · rfl

/-- The whole pairs of an open packet come back. -/
theorem narrow_pairUp (h : Stretch l) : narrow (pairUp l) <+: l := by
  induction l using pairUp.induct with
  | case1 a b rest ih =>
    rw [pairUp, narrow_pair h.2.1 h.2.2.1 h.2.2.2.1 h.valid h.tail.valid]
    exact List.cons_prefix_cons.mpr ⟨rfl, List.cons_prefix_cons.mpr ⟨rfl, ih h.tail.tail⟩⟩
  | case2 l hl =>
    rw [pairUp_short hl]
    exact List.nil_prefix

/-- A packet comes back without the beat that filled it up. -/
theorem narrow_wide (h : Stretch p) (hEof : ∀ a ∈ p.getLast?, a.eof = true) : narrow (wide p) = p := by
  induction p using pad.induct with
  | case1 a b rest ih =>
    rw [wide, pad, pairUp, narrow_pair h.2.1 h.2.2.1 h.2.2.2.1 h.valid h.tail.valid]
    congr 2
    refine ih h.tail.tail fun c hc => hEof c ?_
    cases rest with
    | nil => cases hc
    | cons d rest => rwa [List.getLast?_cons_cons, List.getLast?_cons_cons]
  | case2 a => exact narrow_invalid (hEof a rfl) h []
  | case3 => rfl

theorem pairUp_pad (p l : List (TLPData 8)) : pairUp (pad p ++ l) = wide p ++ pairUp l := by
  induction p using pad.induct with
  | case1 a b rest ih =>
    rw [wide, pad, pairUp, List.cons_append, List.cons_append, pairUp, ih]
    rfl
  | case2 | case3 => rfl

/-- The gearbox pairs up the beats of each packet apart from the others. -/
theorem pairUp_padded (stream : List (TLPData 8)) : pairUp (padded stream) = wideStream stream := by
  rw [padded, wideStream]
  induction ((frame 8).cut stream).1 with
  | nil => rfl
  | cons p ps ih =>
    rw [List.flatMap_cons, List.flatMap_cons, List.append_assoc, pairUp_pad, ih, List.append_assoc]

theorem pairUp_prefix_wide (l m : List (TLPData 8)) : pairUp l <+: wide (l ++ m) := by
  induction l using pairUp.induct with
  | case1 a b rest ih =>
    rw [pairUp, List.cons_append, List.cons_append, wide, pad, pairUp]
    exact List.cons_prefix_cons.mpr ⟨rfl, ih⟩
  | case2 l hl =>
    rw [pairUp_short hl]
    exact List.nil_prefix

theorem pairUp_mono (l m : List (TLPData 8)) : pairUp l <+: pairUp (l ++ m) := by
  induction l using pairUp.induct with
  | case1 a b rest ih =>
    rw [pairUp, List.cons_append, List.cons_append, pairUp]
    exact List.cons_prefix_cons.mpr ⟨rfl, ih⟩
  | case2 l hl =>
    rw [pairUp_short hl]
    exact List.nil_prefix

end Pairs

section Streams

variable {stream : List (TLPData 8)} {b : TLPData 8}

/-- The packets of a stream and the beats of the open packet. -/
structure Packets (c : List (List (TLPData 8)) × List (TLPData 8)) : Prop where
  whole : ∀ p ∈ c.1, Stretch p ∧ ∀ a ∈ p.getLast?, a.eof = true
  rest : Stretch c.2
  unended : ∀ a ∈ c.2, a.eof = false

theorem packets_of_lawful (h : Lawful PcieGearbox.Accepts stream) :
    Packets ((frame 8).cut stream) := by
  refine h.induction (motive := fun stream => Packets ((frame 8).cut stream))
    ⟨fun _ hp => (by cases hp), trivial, fun _ hp => (by cases hp)⟩ ?_
  rintro before b - ⟨hSof, hb, hHit⟩ ih
  have hStretch : Stretch (((frame 8).cut before).2 ++ [b]) := by
    refine ih.rest.concat (fun c hc => ⟨ih.unended c hc, hHit c hc⟩) ?_ hb
    intro hOpen
    rw [← List.isEmpty_eq_false_iff] at hOpen
    exact hSof.trans hOpen
  cases hEof : b.eof with
  | true =>
    rw [Frame.cut_concat_eof hEof]
    refine ⟨?_, trivial, fun _ hp => (by cases hp)⟩
    rw [List.forall_mem_append, List.forall_mem_singleton]
    refine ⟨ih.whole, hStretch, ?_⟩
    rw [List.getLast?_concat]
    rintro a ⟨⟩
    exact hEof
  | false =>
    rw [Frame.cut_concat_middle hEof]
    refine ⟨ih.whole, hStretch, ?_⟩
    rw [List.forall_mem_append, List.forall_mem_singleton]
    exact ⟨ih.unended, hEof⟩

/-- Combining and splitting whole packets gives these packets. -/
theorem narrow_packets {ps : List (List (TLPData 8))}
    (h : ∀ p ∈ ps, Stretch p ∧ ∀ a ∈ p.getLast?, a.eof = true) :
    narrow (ps.flatMap wide) = ps.flatten := by
  induction ps with
  | nil => rfl
  | cons p ps ih =>
    obtain ⟨hp, hps⟩ := List.forall_mem_cons.mp h
    rw [List.flatMap_cons, narrow_append, narrow_wide hp.1 hp.2, ih hps, List.flatten_cons]

/-- Combining and splitting a stream gives the stream, up to the last beat of an open packet. -/
theorem narrow_wideStream (h : Lawful PcieGearbox.Accepts stream) :
    narrow (wideStream stream) <+: stream := by
  have hPackets := packets_of_lawful h
  conv => rhs; rw [← Frame.flatten_cut (F := frame 8) stream]
  rw [wideStream, narrow_append, narrow_packets hPackets.whole, List.prefix_append_right_inj]
  exact narrow_pairUp hPackets.rest

theorem narrow_wideStream_of_closed (h : Lawful PcieGearbox.Accepts stream)
    (hClosed : ((frame 8).cut stream).2 = []) : narrow (wideStream stream) = stream := by
  have hCut := Frame.flatten_cut (F := frame 8) stream
  rw [hClosed, List.append_nil] at hCut
  rw [wideStream, hClosed, narrow_append, narrow_packets (packets_of_lawful h).whole, hCut]
  exact List.append_nil _

theorem wideStream_concat (stream : List (TLPData 8)) (b : TLPData 8) :
    wideStream stream <+: wideStream (stream ++ [b]) := by
  rw [wideStream, wideStream]
  cases hEof : b.eof with
  | true =>
    rw [Frame.cut_concat_eof hEof, List.flatMap_append, List.flatMap_singleton, List.append_assoc,
      List.prefix_append_right_inj]
    exact (pairUp_prefix_wide _ _).trans (List.prefix_append _ _)
  | false =>
    rw [Frame.cut_concat_middle hEof, List.prefix_append_right_inj]
    exact pairUp_mono _ _

theorem wideStream_mono {stream' : List (TLPData 8)} (h : stream <+: stream') :
    wideStream stream <+: wideStream stream' := by
  obtain ⟨more, rfl⟩ := h
  induction more using List.reverseRecOn with
  | nil => rw [List.append_nil]
  | append_singleton more b ih =>
    rw [← List.append_assoc]
    exact ih.trans (wideStream_concat _ _)

theorem length_pad (p : List (TLPData 8)) : (pad p).length % 2 = 0 := by
  induction p using pad.induct with
  | case1 a b rest ih =>
    rw [pad, List.length_cons, List.length_cons]
    omega
  | case2 a => simp [pad]
  | case3 => rfl

theorem pad_eq (p : List (TLPData 8)) : pad p = p ++ if p.length % 2 = 1 then [invalid] else [] := by
  induction p using pad.induct with
  | case1 a b rest ih =>
    have hLength : (a :: b :: rest).length % 2 = rest.length % 2 := by
      rw [List.length_cons, List.length_cons]
      omega
    rw [pad, ih, hLength, List.cons_append, List.cons_append]
  | case2 a => rfl
  | case3 => rfl

/-- Only the open packet makes the number of beats odd. -/
theorem length_padded (stream : List (TLPData 8)) :
    (padded stream).length % 2 = ((frame 8).cut stream).2.length % 2 := by
  have hWhole : (((frame 8).cut stream).1.flatMap pad).length % 2 = 0 := by
    induction ((frame 8).cut stream).1 with
    | nil => rfl
    | cons p ps ih =>
      rw [List.flatMap_cons, List.length_append, Nat.add_mod, length_pad, ih]
  rw [padded, List.length_append, Nat.add_mod, hWhole, Nat.zero_add, Nat.mod_mod]

/-- A beat, and the beat that fills up the packet if this was its last one. -/
theorem padded_concat (stream : List (TLPData 8)) (b : TLPData 8) :
    padded (stream ++ [b]) = padded stream ++
      b :: if b.eof = true ∧ (padded stream).length % 2 = 0 then [invalid] else [] := by
  rw [length_padded, padded, padded]
  cases hEof : b.eof with
  | true =>
    rw [Frame.cut_concat_eof hEof, List.flatMap_append, List.flatMap_singleton, pad_eq,
      List.length_append, List.length_singleton]
    by_cases hEven : ((frame 8).cut stream).2.length % 2 = 0
    · rw [if_pos (by omega), if_pos ⟨rfl, hEven⟩]
      simp
    · rw [if_neg (by omega), if_neg (by tauto)]
      simp
  | false =>
    rw [Frame.cut_concat_middle hEof, if_neg (by simp), List.append_assoc]

end Streams

end Connectal.Pcie
