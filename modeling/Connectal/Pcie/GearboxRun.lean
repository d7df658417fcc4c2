import Connectal.Pcie.Gearbox

/-! Runs of `mkPcieGearbox` with packets from the endpoint and a design that sends
back what it gets. -/
namespace Connectal.Pcie

open Layout Rules

namespace PcieGearbox

variable {rxDepth txDepth : Nat} {s s' : PcieGearbox rxDepth txDepth} {events : List Event}
  {received sent consumed halves : List (TLPData 8)} {combined returned : List (TLPData 16)}
  {pairs : List (TLPData 8 × TLPData 8)}

/-- The beat that is still to be sent to fill up a packet. -/
def pending (s : PcieGearbox rxDepth txDepth) : List (TLPData 8) :=
  if s.rSendInvalid then [invalid] else []

/-- Pairs of beats as they left the receiving gearbox. -/
def beats (pairs : List (TLPData 8 × TLPData 8)) : List (TLPData 8) := pairs.flatMap fun p => [p.1, p.2]

theorem length_beats (pairs : List (TLPData 8 × TLPData 8)) : (beats pairs).length = 2 * pairs.length := by
  simp [beats, Nat.mul_comm]

theorem pairUp_beats (pairs : List (TLPData 8 × TLPData 8)) (rest : List (TLPData 8)) :
    pairUp (beats pairs ++ rest) = pairs.map (fun p => combine p.1 p.2) ++ pairUp rest := by
  induction pairs with
  | nil => rfl
  | cons p ps ih =>
    show combine p.1 p.2 :: pairUp (beats ps ++ rest) = _
    rw [ih]
    rfl

/-- Every queue holds a stretch of what has come in: `consumed` has left the input
queue, `pairs` have left the receiving gearbox, and `halves` have left the
sending gearbox. -/
structure GearboxInv (received : List (TLPData 8)) (combined returned : List (TLPData 16))
    (sent : List (TLPData 8)) (s : PcieGearbox rxDepth txDepth)
    (consumed : List (TLPData 8)) (pairs : List (TLPData 8 × TLPData 8)) (halves : List (TLPData 8)) :
    Prop where
  lawful : Lawful Accepts received
  input : received = consumed ++ s.inFifo.items
  gear : beats pairs ++ s.fifoRxData.items ++ s.pending = padded consumed
  odd : s.rOddBeat = decide (s.fifoRxData.items.length % 2 = 1)
  pairing : combined = pairs.map fun p => combine p.1 p.2
  loop : returned <+: combined
  splits : returned.flatMap split = halves ++ s.fifoTxData.items
  output : halves.filter (·.be ≠ 0) = sent ++ s.outFifo.items

namespace GearboxInv

variable (h : GearboxInv received combined returned sent s consumed pairs halves)

include h

theorem parity (hNone : s.rSendInvalid = false) : s.rOddBeat = decide ((padded consumed).length % 2 = 1) := by
  rw [h.odd, ← h.gear, pending, hNone, List.length_append, List.length_append, length_beats,
    decide_eq_decide]
  show _ ↔ (_ + 0) % 2 = 1
  omega

theorem processIncomingPackets1 (hFire : PcieGearbox.processIncomingPackets1 s = some (s', events)) :
    events = [] ∧ ∃ consumed', GearboxInv received combined returned sent s' consumed' pairs halves := by
  simp only [PcieGearbox.processIncomingPackets1, firing] at hFire
  obtain ⟨hNone, data, q, hq, r, ⟨-, hr⟩, rfl, rfl⟩ := hFire
  have hGear := h.gear
  rw [pending, hNone, if_neg Bool.false_ne_true, List.append_nil] at hGear
  -- the packet is filled up exactly if its last beat is the first one of a pair
  have hPending : (data.eof = true ∧ (padded consumed).length % 2 = 0) ↔
      (!s.rOddBeat && data.eof) = true := by
    rw [h.parity hNone]
    simp [and_comm]
  refine ⟨rfl, consumed ++ [data], { h with input := ?_, gear := ?_, odd := ?_ }⟩
  · rw [h.input, hq, List.append_assoc]
    rfl
  · simp only [padded_concat, hPending]
    rw [hr, ← hGear, pending, List.append_assoc, List.append_assoc, List.append_assoc]
    rfl
  · rw [hr, h.odd, List.length_append, List.length_singleton, ← decide_not, decide_eq_decide]
    omega

theorem pciResponseGet (hFire : PcieGearbox.pciResponseGet s = some (s', events)) :
    ∃ x pairs', events = [.combined x] ∧
      GearboxInv received (combined ++ [x]) returned sent s' consumed pairs' halves := by
  simp only [PcieGearbox.pciResponseGet, firing, Fifo.deqN_eq_some] at hFire
  obtain ⟨pair, r, ⟨hLength, hItems⟩, hMatch⟩ := hFire
  obtain ⟨a, b, rfl⟩ := List.length_eq_two.mp hLength
  obtain ⟨rfl, rfl⟩ : _ ∧ _ := by simpa using hMatch
  refine ⟨combine a b, pairs ++ [(a, b)], rfl, { h with gear := ?_, odd := ?_, pairing := ?_, loop := ?_ }⟩
  · rw [← h.gear, hItems]
    simp [beats, pending]
  · show s.rOddBeat = decide (r.items.length % 2 = 1)
    rw [h.odd, hItems, List.length_append, hLength, decide_eq_decide]
    omega
  · rw [h.pairing, List.map_append]
    rfl
  · exact h.loop.trans (List.prefix_append _ _)

theorem pciRequestPut {x : TLPData 16} (hOk : combined[returned.length]? = some x)
    (hFire : PcieGearbox.pciRequestPut x s = some (s', events)) :
    events = [.returned x] ∧
      GearboxInv received combined (returned ++ [x]) sent s' consumed pairs halves := by
  simp only [PcieGearbox.pciRequestPut, firing, Fifo.enqAll_eq_some] at hFire
  obtain ⟨q, ⟨-, hq⟩, rfl, rfl⟩ := hFire
  refine ⟨rfl, { h with loop := ?_, splits := ?_ }⟩
  · obtain ⟨more, rfl⟩ := h.loop
    cases more with
    | nil => simp at hOk
    | cons y more =>
      simp only [List.getElem?_append_right (Nat.le_refl _), Nat.sub_self, List.getElem?_cons_zero,
        Option.some.injEq] at hOk
      rw [hOk, List.prefix_append_right_inj]
      exact List.prefix_append [x] more
  · rw [List.flatMap_append, h.splits, List.flatMap_singleton, hq, List.append_assoc]

theorem processOutgoingPackets (hFire : PcieGearbox.processOutgoingPackets s = some (s', events)) :
    events = [] ∧ ∃ halves', GearboxInv received combined returned sent s' consumed pairs halves' := by
  simp only [PcieGearbox.processOutgoingPackets, firing, Fifo.enqIf_eq_some] at hFire
  obtain ⟨temp, q, hq, r, ⟨-, hr⟩, rfl, rfl⟩ := hFire
  refine ⟨rfl, halves ++ [temp], { h with splits := ?_, output := ?_ }⟩
  · rw [h.splits, hq, List.append_assoc]
    rfl
  · rw [List.filter_append, h.output]
    rw [hr, List.append_assoc]
    by_cases hBytes : temp.be = 0
    · simp [hBytes]
    · rw [List.filter_cons, if_pos (decide_eq_true hBytes), if_pos hBytes]
      rfl

/-- The beats of 16 bytes are those of the packets, one packet after the other. -/
theorem combined_prefix : combined <+: wideStream consumed := by
  rw [← pairUp_padded, ← h.gear, List.append_assoc, pairUp_beats, h.pairing]
  exact List.prefix_append _ _

theorem consumed_prefix : consumed <+: received := by
  rw [h.input]
  exact List.prefix_append _ _

/-- What leaves the module is the beginning of what came in. -/
theorem sent_prefix : sent <+: received := by
  have hOut : sent <+: narrow returned := by
    rw [narrow, h.splits, List.filter_append, h.output, List.append_assoc]
    exact List.prefix_append _ _
  have hLawful : Lawful Accepts consumed := h.lawful.mono h.consumed_prefix
  calc sent <+: narrow returned := hOut
    _ <+: narrow (wideStream consumed) := narrow_mono (h.loop.trans h.combined_prefix)
    _ <+: consumed := narrow_wideStream hLawful
    _ <+: received := h.consumed_prefix

end GearboxInv

/-- What the events of a run show, and what it has done so far. -/
def Inv (trace : List Event) (s : PcieGearbox rxDepth txDepth) : Prop :=
  ∃ consumed pairs halves, GearboxInv (trace.filterMap received?) (trace.filterMap combined?)
    (trace.filterMap returned?) (trace.filterMap sent?) s consumed pairs halves

variable {trace : List Event}

attribute [local simp] List.filterMap_cons received? combined? returned? sent?

theorem Inv.step {action : Action} (h : Inv trace s) (hOk : Loopback trace s action)
    (hFire : (machine rxDepth txDepth).fire action s = some (s', events)) : Inv (trace ++ events) s' := by
  obtain ⟨consumed, pairs, halves, h⟩ := h
  simp only [Inv, List.filterMap_append]
  cases action with
  | responsePut b =>
    simp only [machine, PcieGearbox.responsePut, firing] at hFire
    obtain ⟨q, ⟨-, hq⟩, rfl, rfl⟩ := hFire
    have hInput : trace.filterMap received? ++ [b] = consumed ++ q.items := by
      rw [hq, h.input, List.append_assoc]
    exact ⟨consumed, pairs, halves, by simpa using { h with lawful := h.lawful.concat hOk, input := hInput }⟩
  | processIncomingPackets1 =>
    obtain ⟨rfl, consumed', h'⟩ := h.processIncomingPackets1 hFire
    exact ⟨consumed', pairs, halves, by simpa using h'⟩
  | sendInvalidPackets1 =>
    simp only [machine, PcieGearbox.sendInvalidPackets1, firing] at hFire
    obtain ⟨hSend, r, ⟨-, hr⟩, rfl, rfl⟩ := hFire
    have hGear := h.gear
    rw [pending, hSend, if_pos rfl] at hGear
    simp only [counting]
    refine ⟨consumed, pairs, halves, { h with gear := ?_, odd := ?_ }⟩
    · rw [← hGear, hr, pending]
      simp
    · rw [hr, h.odd, List.length_append, List.length_singleton, ← decide_not, decide_eq_decide]
      omega
  | pciResponseGet =>
    obtain ⟨x, pairs', rfl, h'⟩ := h.pciResponseGet hFire
    exact ⟨consumed, pairs', halves, by simpa using h'⟩
  | pciRequestPut x =>
    obtain ⟨rfl, h'⟩ := h.pciRequestPut hOk hFire
    exact ⟨consumed, pairs, halves, by simpa using h'⟩
  | processOutgoingPackets =>
    obtain ⟨rfl, halves', h'⟩ := h.processOutgoingPackets hFire
    exact ⟨consumed, pairs, halves', by simpa using h'⟩
  | requestGet =>
    simp only [machine, PcieGearbox.requestGet, firing] at hFire
    obtain ⟨b, q, hq, rfl, rfl⟩ := hFire
    have hOutput := h.output
    rw [hq, List.append_cons] at hOutput
    exact ⟨consumed, pairs, halves, by simpa using { h with output := hOutput }⟩

theorem run_inv (run : (machine rxDepth txDepth).Run Loopback s trace) : Inv trace s := by
  refine run.invariant Inv ?_ fun _ _ _ _ _ => Inv.step
  rintro _ rfl
  exact ⟨[], [], [], Lawful.nil, rfl, rfl, rfl, rfl, List.prefix_refl _, rfl, rfl⟩

/-- How far the beats in the module are from leaving it. -/
def rank (trace : List Event) (s : PcieGearbox rxDepth txDepth) : Nat :=
  s.outFifo.items.length + 2 * s.fifoTxData.items.length +
    5 * ((trace.filterMap combined?).length - (trace.filterMap returned?).length) +
    3 * s.fifoRxData.items.length + 4 * s.pending.length + 8 * s.inFifo.items.length

/-- Some action brings the beats closer to leaving the module. -/
abbrev Advances (trace : List Event) (s : PcieGearbox rxDepth txDepth) : Prop :=
  (machine rxDepth txDepth).Advances Loopback received? rank trace s

theorem advances_requestGet (hOut : s.outFifo.items ≠ []) : Advances trace s := by
  obtain ⟨b, q, hDeq, hItems⟩ := Fifo.exists_deq_of_ne_nil hOut
  refine ⟨.requestGet, _, [.sent b], trivial,
    by simp only [machine, requestGet, hDeq]; rfl, rfl, ?_⟩
  simp only [rank, pending, counting, hItems, combined?, returned?]
  omega

theorem advances_processOutgoingPackets (hOut : s.outFifo.items = []) (hHalves : s.fifoTxData.items ≠ []) :
    Advances trace s := by
  obtain ⟨temp, q, hDeq, hItems⟩ := Fifo.exists_deq_of_ne_nil hHalves
  let out : Fifo (TLPData 8) 2 := ⟨if temp.be ≠ 0 then [temp] else [], by split <;> simp⟩
  have hEnq : s.outFifo.enqIf (temp.be ≠ 0) temp = some out := by
    rw [Fifo.enqIf_eq_some, hOut]
    exact ⟨fun _ => by decide, rfl⟩
  refine ⟨.processOutgoingPackets, _, [], trivial,
    by simp only [machine, processOutgoingPackets, hDeq, some_bind, hEnq]; rfl,
    rfl, ?_⟩
  have hShort : out.items.length ≤ 1 := by
    show (if temp.be ≠ 0 then [temp] else []).length ≤ 1
    split <;> simp
  simp only [rank, pending, hItems, hOut, counting]
  omega

theorem advances_pciRequestPut (hTx : 2 ≤ txDepth) (hHalves : s.fifoTxData.items = [])
    (hLoop : (trace.filterMap returned?).length < (trace.filterMap combined?).length) :
    Advances trace s := by
  obtain ⟨q, hEnq, hItems⟩ := Fifo.exists_enqAll (q := s.fifoTxData)
    (split ((trace.filterMap combined?)[(trace.filterMap returned?).length]))
    (by rw [hHalves]; exact hTx)
  refine ⟨.pciRequestPut _, _, _, List.getElem?_eq_getElem hLoop,
    by simp only [machine, pciRequestPut, hEnq]; rfl, rfl, ?_⟩
  simp only [rank, pending, counting, hItems, hHalves, combined?, returned?, split]
  omega

theorem advances_pciResponseGet (hLoop : (trace.filterMap combined?).length ≤ (trace.filterMap returned?).length)
    (hPair : 2 ≤ s.fifoRxData.items.length) : Advances trace s := by
  obtain ⟨a, b, rest, hItems⟩ : ∃ a b rest, s.fifoRxData.items = [a, b] ++ rest := by
    match s.fifoRxData.items, hPair with
    | a :: b :: rest, _ => exact ⟨a, b, rest, rfl⟩
  obtain ⟨q, hDeq, hq⟩ := Fifo.exists_deqN hItems
  refine ⟨.pciResponseGet, _, [.combined (combine a b)], trivial,
    by simp only [machine, pciResponseGet]; erw [hDeq]; rfl, rfl, ?_⟩
  simp only [rank, pending, hq, hItems, counting, combined?, returned?]
  omega

theorem advances_sendInvalidPackets1 (hSend : s.rSendInvalid = true)
    (hRoom : s.fifoRxData.items.length < rxDepth) : Advances trace s := by
  obtain ⟨q, hEnq, hItems⟩ := Fifo.exists_enq hRoom invalid
  refine ⟨.sendInvalidPackets1, _,
    [], trivial, by simp only [machine, sendInvalidPackets1, hSend, hEnq]; rfl, rfl, ?_⟩
  simp only [rank, pending, hItems, hSend, counting, if_true, Bool.false_eq_true, if_false]
  omega

theorem advances_processIncomingPackets1 (hSend : s.rSendInvalid = false) (hIn : s.inFifo.items ≠ [])
    (hRoom : s.fifoRxData.items.length < rxDepth) : Advances trace s := by
  obtain ⟨data, r, hDeq, hData⟩ := Fifo.exists_deq_of_ne_nil hIn
  obtain ⟨q, hEnq, hItems⟩ := Fifo.exists_enq hRoom data
  refine ⟨.processIncomingPackets1, _,
    [], trivial,
    by simp only [machine, processIncomingPackets1, hSend, hDeq, some_bind, hEnq]; rfl,
    rfl, ?_⟩
  have hShort : (if (!s.rOddBeat && data.eof) = true then [invalid] else []).length ≤ 1 := by
    split <;> simp
  simp only [rank, pending, hItems, hSend, hData, counting, Bool.false_eq_true, if_false]
  omega

/-- When nothing is left to be done, everything has left the module. -/
theorem GearboxInv.done (h : GearboxInv received combined returned sent s consumed pairs halves)
    (hClosed : ((TLPData.frame 8).cut received).2 = []) (hOut : s.outFifo.items = [])
    (hHalves : s.fifoTxData.items = []) (hLoop : combined.length ≤ returned.length)
    (hPair : s.fifoRxData.items.length < 2) (hSend : s.rSendInvalid = false)
    (hIn : s.inFifo.items = []) : sent = received := by
  have hConsumed : consumed = received := by rw [h.input, hIn, List.append_nil]
  subst hConsumed
  have hReturned : returned = combined := h.loop.eq_of_length_le hLoop
  have hGear := h.gear
  rw [pending, hSend, if_neg Bool.false_ne_true, List.append_nil] at hGear
  have hEmpty : s.fifoRxData.items = [] := by
    have hLength := length_padded consumed
    rw [← hGear, hClosed, List.length_append, length_beats, List.length_nil] at hLength
    apply List.eq_nil_of_length_eq_zero
    omega
  have hCombined : combined = wideStream consumed := by
    rw [← pairUp_padded, ← hGear, hEmpty, pairUp_beats, h.pairing]
    exact (List.append_nil _).symm
  have hOutput := h.output
  rw [hOut, List.append_nil] at hOutput
  have hSplits := h.splits
  rw [hHalves, List.append_nil] at hSplits
  rw [← hOutput, ← hSplits, hReturned, hCombined]
  exact narrow_wideStream_of_closed h.lawful hClosed

/-- Without further input everything leaves the module, if no packet is open. -/
theorem Inv.progress (hRx : 2 ≤ rxDepth) (hTx : 2 ≤ txDepth) (h : Inv trace s)
    (hClosed : ((TLPData.frame 8).cut (trace.filterMap received?)).2 = []) :
    trace.filterMap sent? = trace.filterMap received? ∨ Advances trace s := by
  obtain ⟨consumed, pairs, halves, h⟩ := h
  by_cases hOut : s.outFifo.items = []
  case neg => exact .inr (advances_requestGet hOut)
  by_cases hHalves : s.fifoTxData.items = []
  case neg => exact .inr (advances_processOutgoingPackets hOut hHalves)
  by_cases hLoop : (trace.filterMap returned?).length < (trace.filterMap combined?).length
  case pos => exact .inr (advances_pciRequestPut hTx hHalves hLoop)
  by_cases hPair : 2 ≤ s.fifoRxData.items.length
  case pos => exact .inr (advances_pciResponseGet (Nat.le_of_not_lt hLoop) hPair)
  have hRoom : s.fifoRxData.items.length < rxDepth := Nat.lt_of_lt_of_le (Nat.lt_of_not_le hPair) hRx
  cases hSend : s.rSendInvalid with
  | true => exact .inr (advances_sendInvalidPackets1 hSend hRoom)
  | false =>
    by_cases hIn : s.inFifo.items = []
    · exact .inl (h.done hClosed hOut hHalves (Nat.le_of_not_lt hLoop) (Nat.lt_of_not_le hPair) hSend hIn)
    · exact .inr (advances_processIncomingPackets1 hSend hIn hRoom)

end PcieGearbox

open PcieGearbox

/-- Packets of 8 byte beats are combined into 16 byte beats, each of them with
bytes of one packet, and what is sent back is split into the same packets. Beats leave
the module in the order in which they came in, and once every packet is complete
all of them can leave it. -/
theorem gearbox_round_trip {rxDepth txDepth : Nat} (hRx : 2 ≤ rxDepth) (hTx : 2 ≤ txDepth)
    {s : PcieGearbox rxDepth txDepth} {trace : List Event}
    (run : (machine rxDepth txDepth).Run Loopback s trace) :
    trace.filterMap sent? <+: trace.filterMap received? ∧
      trace.filterMap combined? <+: wideStream (trace.filterMap received?) ∧
      (((TLPData.frame 8).cut (trace.filterMap received?)).2 = [] →
        ∃ s' trace', (machine rxDepth txDepth).Continues Loopback (s, trace) (s', trace') ∧
          trace'.filterMap received? = trace.filterMap received? ∧
          trace'.filterMap sent? = trace.filterMap received?) := by
  have hInv := run_inv run
  obtain ⟨consumed, pairs, halves, h⟩ := id hInv
  refine ⟨h.sent_prefix, h.combined_prefix.trans (wideStream_mono h.consumed_prefix), ?_⟩
  intro hClosed
  refine Machine.exists_drained rank (fun _ _ _ _ _ => Inv.step)
    (fun trace' s' h' hReceived => ?_) hInv
  rw [← hReceived]
  exact h'.progress hRx hTx (hReceived ▸ hClosed)

/-- A packet of three beats and one of two beats. -/
def oddAndEven : List (TLPData 8) :=
  [⟨true, false, 4, 0xff, 1⟩, ⟨false, false, 4, 0xff, 2⟩, ⟨false, true, 4, 0xf0, 3⟩,
    ⟨true, false, 1, 0xff, 4⟩, ⟨false, true, 1, 0xff, 5⟩]

/-- The two packets make three beats, and the second packet starts with the third of them. -/
theorem gearbox_round_trip_odd_and_even :
    ∃ (s : PcieGearbox 4 4) (trace : List Event), (machine 4 4).Run Loopback s trace ∧
      trace.filterMap received? = oddAndEven ∧
      (trace.filterMap combined?).map (·.sof) = [true, false, true] ∧
      trace.filterMap sent? <+: trace.filterMap received? ∧
      trace.filterMap combined? <+: wideStream (trace.filterMap received?) ∧
      ∃ s' trace', (machine 4 4).Continues Loopback (s, trace) (s', trace') ∧
        trace'.filterMap received? = oddAndEven ∧ trace'.filterMap sent? = oddAndEven := by
  obtain ⟨s, trace, hRun, hResult⟩ := Machine.exists_run
    (show ((machine 4 4).exec Loopback
      (oddAndEven.flatMap (fun b => [.responsePut b, .processIncomingPackets1] ++
        if b.eof && b.hit == 4 then [.sendInvalidPackets1, .pciResponseGet, .pciResponseGet] else []) ++
        [.pciResponseGet])
      (⟨.empty, false, false, .empty, .empty, .empty⟩, [])).map
        (fun d => (d.2.filterMap received?, (d.2.filterMap combined?).map (·.sof))) =
          some (oddAndEven, [true, false, true]) by decide +kernel) rfl
  rw [Prod.mk.injEq] at hResult
  obtain ⟨hPrefix, hWide, hAll⟩ := gearbox_round_trip (by decide) (by decide) hRun
  rw [hResult.1] at hAll
  exact ⟨s, trace, hRun, hResult.1, hResult.2, hPrefix, hWide, hAll (by decide)⟩

end Connectal.Pcie
