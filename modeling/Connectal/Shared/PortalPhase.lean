import Connectal.Shared.FirstLap

/-! What the request portal knows in each of its states while the sender stays in the
first lap, and how the words of a batch come to it. -/
namespace Connectal.Shared

open Rules

/-- Where the portal reads next. -/
def RequestPortal.tail (p : RequestPortal) : Nat :=
  if p.reqTailReg = 0 then sharedStart else p.reqTailReg.toNat

/-- The tail is the head that was read. -/
def RequestPortal.CaughtUp (p : RequestPortal) : Prop :=
  p.reqHeadReg = p.reqTailReg ∧ p.reqTailReg ≠ 0

namespace RequestSystem

/-- The messages behind the tail can be read in one batch: the last of them has a pad,
and their number of words fits into its register. -/
def Readable (trace : List PortalEvent) (s : RequestSystem) : Prop :=
  (∀ m ∈ (sentMessages trace).getLast?, m.words % 2 = 1) ∧
    s.mem.index sharedWrite - s.portal.tail < 2 ^ 16

instance (trace : List PortalEvent) (s : RequestSystem) : Decidable (Readable trace s) :=
  inferInstanceAs (Decidable (_ ∧ _))

/-- The sender stays in its lap, and what is behind the tail is readable whenever the
portal looks at the write index. -/
def OneLap (c : SharedParam) : Machine.Contract RequestSystem Action PortalEvent
  | _, s, .sender => s.nextLap c.reqsize = s.lap
  | trace, s, .fetch => s.fetches.head? = some sharedLimit → Readable trace s
  | trace, s, action => Scheduled c trace s action

instance (c : SharedParam) (trace : List PortalEvent) (s : RequestSystem) :
    (action : Action) → Decidable (OneLap c trace s action)
  | .sender => inferInstanceAs (Decidable (s.nextLap c.reqsize = s.lap))
  | .fetch => inferInstanceAs (Decidable (s.fetches.head? = some sharedLimit → Readable trace s))
  | .call m => inferInstanceAs (Decidable (Scheduled c trace s (.call m)))
  | .demuxwords => inferInstanceAs (Decidable (Scheduled c trace s .demuxwords))
  | .setSglId | .updateReqHeadTail | .receiveReqHeadTail | .requestMessage | .tofifos => .isTrue trivial
  | .receiveMessageHeader | .drain | .receiveMessage | .updateTail | .waiting | .commit => .isTrue trivial

/-- The words that were asked for and are not in the lanes yet. -/
def behind (s : RequestSystem) : List Word :=
  (s.portal.inFifo.items.flatMap fun w => [w.1, w.2]) ++ (s.dataPipe.flatMap fun w => [w.1, w.2]) ++
    s.fetches.flatMap fun i => [s.cells i, s.cells (i + 1)]

/-- The words that were asked for and not taken by the portal yet. -/
def content (s : RequestSystem) : List Word := s.portal.lanes.items ++ s.behind

end RequestSystem

section Layout

variable {c : SharedParam} {msgs : List Message} {cells : Nat → Word} {ws : List Word}

theorem even_layout (msgs : List Message) : (layout msgs).length % 2 = 0 := by
  induction msgs with
  | nil => rfl
  | cons m msgs ih =>
    rw [layout_cons, List.length_append, m.length_cells, Message.size]
    omega

theorem layout_eq_nil (h : (layout msgs).length = 0) : msgs = [] := by
  cases msgs with
  | nil => rfl
  | cons m msgs =>
    rw [layout_cons, List.length_append, m.length_cells] at h
    have hSize := m.size_pos
    omega

theorem beats_succ (base k : Nat) :
    RequestSystem.beats base (2 * (k + 1)) = base :: RequestSystem.beats (base + 2) (2 * k) := by
  simp only [RequestSystem.beats, Nat.mul_div_cancel_left _ Nat.two_pos, List.range_succ_eq_map,
    List.map_cons, List.map_map, Nat.mul_zero, Nat.add_zero, List.cons.injEq, true_and]
  refine List.map_congr_left fun i _ => ?_
  simp only [Function.comp_apply]
  omega

/-- A read of an even number of words brings the words that are in memory. -/
theorem laid_beats {base : Nat} (h : Laid cells base ws) (hEven : ws.length % 2 = 0) :
    ((RequestSystem.beats base ws.length).flatMap fun i => [cells i, cells (i + 1)]) = ws := by
  obtain ⟨k, hLength⟩ : ∃ k, ws.length = 2 * k := ⟨ws.length / 2, by omega⟩
  clear hEven
  rw [hLength]
  induction k generalizing base ws with
  | zero => exact (List.length_eq_zero_iff.mp hLength).symm
  | succ k ih =>
    match ws, hLength with
    | w :: w' :: ws, hLength =>
      have hFirst := laid_cons.mp h
      have hSecond := laid_cons.mp hFirst.2
      rw [beats_succ, List.flatMap_cons, hFirst.1, hSecond.1,
        ih hSecond.2 (by rw [List.length_cons, List.length_cons] at hLength; omega)]
      rfl

theorem mem_beats {base n i : Nat} (h : i ∈ RequestSystem.beats base n) :
    base ≤ i ∧ i + 1 < base + n := by
  obtain ⟨k, hk, rfl⟩ := List.mem_map.mp h
  rw [List.mem_range] at hk
  omega

end Layout

/-- A head index: the end of a batch of messages behind the tail. -/
def Head (done todo : List Message) (head : BitVec 32) : Prop :=
  ∃ batch rest, todo = batch ++ rest ∧ head.toNat = 4 + (layout (done ++ batch)).length ∧
    (layout batch).length < 2 ^ 16 ∧ ∀ m ∈ batch.getLast?, m.words % 2 = 1

/-- The words between the tail and a head. -/
theorem count_batch {done batch : List Message} {tail head : BitVec 32}
    (hTail : tail.toNat = 4 + (layout done).length)
    (hHead : head.toNat = 4 + (layout (done ++ batch)).length) :
    ¬ head < tail ∧ (head - tail).toNat = (layout batch).length := by
  rw [layout_append, List.length_append] at hHead
  constructor
  · rw [BitVec.lt_def]
    omega
  · rw [BitVec.toNat_sub_of_le (BitVec.le_def.mpr (by omega))]
    omega

theorem Head.append {done todo : List Message} {head : BitVec 32} (h : Head done todo head)
    (more : List Message) : Head done (todo ++ more) head := by
  obtain ⟨batch, rest, rfl, hHead, hShort, hLast⟩ := h
  exact ⟨batch, rest ++ more, List.append_assoc .., hHead, hShort, hLast⟩

/-- The last two index words are on their way. The tail is taken from them only once. -/
def TailWords (reqTailReg : BitVec 32) (fetches : List Nat) (dataPipe : List (Word × Word)) : Prop :=
  (fetches = [2] ∧ dataPipe = []) ∨
    (fetches = [] ∧ ∃ w, dataPipe = [w] ∧ (reqTailReg = 0 → w.1.value = 4))

/-- The four index words are on their way. -/
def HeadWords (done todo : List Message) (reqTailReg : BitVec 32) (fetches : List Nat)
    (dataPipe : List (Word × Word)) : Prop :=
  (fetches = [0, 2] ∧ dataPipe = []) ∨
    ∃ w rest, dataPipe = w :: rest ∧ Head done todo w.2.value ∧ TailWords reqTailReg fetches rest

/-- The portal waits for index words. -/
def Indices (E : List (BitVec 16 × BitVec 32)) (done todo : List Message) (s : RequestSystem) : Prop :=
  E = deliveries done ∧ s.portal.lanes.items = [] ∧ s.portal.inFifo.items = [] ∧
    ((s.portal.reqState = .headRequested ∧
        HeadWords done todo s.portal.reqTailReg s.fetches s.dataPipe) ∨
      (s.portal.reqState = .tailRequested ∧ Head done todo s.portal.reqHeadReg ∧
        TailWords s.portal.reqTailReg s.fetches s.dataPipe))

/-- What is left of a batch: the rest of a payload, and whole messages behind it. -/
structure Batch (c : SharedParam) (E : List (BitVec 16 × BitVec 32)) (done : List Message)
    (words : List Word) (method : BitVec 16) (left : List (BitVec 32)) (pads : List Word)
    (rest : List Message) : Prop where
  content : words = left.map (written .payload) ++ (pads ++ layout rest)
  padding : ∀ w ∈ pads, w = written .pad padHdr
  more : pads ++ layout rest ≠ []
  last : ∀ m ∈ rest.getLast?, m.words % 2 = 1
  fits : ∀ m ∈ rest, c.Fits m
  enqs : E ++ left.map (method, ·) ++ deliveries rest = deliveries done

/-- The portal between the reads of the index words, with the words on their way. -/
def Body (c : SharedParam) (E : List (BitVec 16 × BitVec 32)) (done todo : List Message)
    (p : RequestPortal) (words : List Word) (acks : Nat) : Prop :=
  match p.reqState with
  | .idle => words = [] ∧ E = deliveries done
  | .requestMessage =>
    words = [] ∧ E = deliveries done ∧ p.reqTailReg ≠ 0 ∧ p.reqTailReg ≠ p.reqHeadReg ∧
      Head done todo p.reqHeadReg
  | .messageHeaderRequested =>
    p.CaughtUp ∧ p.wordCountReg.toNat = words.length ∧
      ∃ pads rest, Batch c E done words p.methodIdReg [] pads rest
  | .messageRequested =>
    p.CaughtUp ∧ p.wordCountReg.toNat = words.length ∧
      p.methodIdReg ≠ 0xffff#16 ∧ ∃ x left pads rest,
        Batch c E done words p.methodIdReg (x :: left) pads rest ∧
          p.messageWordsReg.toNat = left.length + 1
  | .updateTail => words = [] ∧ E = deliveries done ∧ p.CaughtUp
  | .waiting => words = [] ∧ E = deliveries done ∧ 0 < acks
  | .headRequested | .tailRequested | .drain => False

/-- The portal, the engines and the sender in the first lap, after the messages `done`
were asked for and with the messages `todo` behind the tail. -/
structure PortalInv (c : SharedParam) (trace : List PortalEvent) (s : RequestSystem)
    (done todo : List Message) : Prop where
  sent : sentMessages trace = done ++ todo
  lap : FirstLap c (done ++ todo) s
  laps : s.portal.lap = 0 ∧ s.portal.batchLap = 0
  tail : s.portal.tail = 4 + (layout done).length
  fresh : s.portal.reqTailReg = 0 → s.mem.index sharedRead = 4 ∧ s.writes = []
  phase : Indices (enqs trace) done todo s ∨
    Body c (enqs trace) done todo s.portal s.content (s.writes.length + s.responses) ∧
      ∀ i ∈ s.fetches, 4 ≤ i ∧ i + 1 < 4 + (layout done).length

end Connectal.Shared
