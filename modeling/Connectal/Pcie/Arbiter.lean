import Connectal.Pcie.Dispatcher

/-! `mkTLPArbiter` of `PcieSplitter.bsv`: packets of several sources share the bus. -/
namespace Connectal.Pcie

open Layout Rules
open TLPData (frame)

structure TLPArbiter where
  tlpOutFifo : Fifo (TLPData 16) 2
  tlpInFifo : Port → Fifo (TLPData 16) 2
  routeFrom : Option Port

namespace TLPArbiter

inductive Event where
  | received (port : Port) (tlp : TLPData 16)
  | sent (tlp : TLPData 16)
  deriving DecidableEq

def received? : Event → Option (Port × TLPData 16)
  | .received port tlp => some (port, tlp)
  | .sent _ => none

def sent? : Event → Option (TLPData 16)
  | .received _ _ => none
  | .sent tlp => some tlp

inductive Action where
  | inPut (port : Port) (tlp : TLPData 16)
  | arbitrateOutgoingTLP
  | outToBusGet

/-- The first beat of the first port that has one. -/
def firstBeat (s : TLPArbiter) : Option (Port × TLPData 16 × Fifo (TLPData 16) 2) :=
  (List.finRange 4).findSome? fun port => (s.tlpInFifo port).deq.map fun r => (port, r.1, r.2)

/-- Between packets, a beat that does not start a packet is dropped. -/
def arbitrateOutgoingTLP (s : TLPArbiter) : Option (TLPArbiter × List Event) :=
  match s.routeFrom with
  | some port =>
    match (s.tlpInFifo port).deq with
    | some (tlp, q) => do
        let tlpOutFifo ← s.tlpOutFifo.enq tlp
        pure (⟨tlpOutFifo, Function.update s.tlpInFifo port q,
          if tlp.eof then none else s.routeFrom⟩, [])
    | none => pure (s, [])
  | none =>
    match s.firstBeat with
    | some (port, tlp, q) =>
      if tlp.sof then do
        let tlpOutFifo ← s.tlpOutFifo.enq tlp
        pure (⟨tlpOutFifo, Function.update s.tlpInFifo port q,
          if tlp.eof then s.routeFrom else some port⟩, [])
      else pure ({ s with tlpInFifo := Function.update s.tlpInFifo port q }, [])
    | none => pure (s, [])

def inPut (port : Port) (tlp : TLPData 16) (s : TLPArbiter) : Option (TLPArbiter × List Event) := do
  let q ← (s.tlpInFifo port).enq tlp
  pure ({ s with tlpInFifo := Function.update s.tlpInFifo port q }, [.received port tlp])

def outToBusGet (s : TLPArbiter) : Option (TLPArbiter × List Event) := do
  let (tlp, tlpOutFifo) ← s.tlpOutFifo.deq
  pure ({ s with tlpOutFifo }, [.sent tlp])

def fresh : TLPArbiter := ⟨.empty, fun _ => .empty, none⟩

def machine : Machine TLPArbiter Action Event where
  init s := s = fresh
  fire
    | .inPut port tlp => inPut port tlp
    | .arbitrateOutgoingTLP => arbitrateOutgoingTLP
    | .outToBusGet => outToBusGet

/-- The beats of one port in a sequence of beats with their ports. -/
def ofPort (port : Port) (beats : List (Port × TLPData 16)) : List (TLPData 16) :=
  (beats.filter (·.1 = port)).map (·.2)

/-- Every source sends packets. -/
def Packets (trace : List Event) (_ : TLPArbiter) : Action → Prop
  | .inPut port tlp => (frame 16).Admits (ofPort port (trace.filterMap received?)) tlp
  | _ => True

instance (trace : List Event) (s : TLPArbiter) (action : Action) : Decidable (Packets trace s action) :=
  match action with
  | .inPut port tlp => inferInstanceAs
      (Decidable ((frame 16).Admits (ofPort port (trace.filterMap received?)) tlp))
  | .arbitrateOutgoingTLP | .outToBusGet => .isTrue trivial

/-- In an interleaving of whole packets, a beat that continues a packet comes from the
source of the beat before it. -/
def OnePacket (before : List (Port × TLPData 16)) (x : Port × TLPData 16) : Prop :=
  (frame 16).Admits (before.map (·.2)) x.2 ∧
    (x.2.sof = false → before.getLast?.map (·.1) = some x.1)

variable {s s' : TLPArbiter} {events : List Event} {port : Port} {tlp : TLPData 16}
  {received beats : List (Port × TLPData 16)} {sent : List (TLPData 16)}

@[simp] theorem ofPort_nil : ofPort port [] = [] := rfl

@[simp] theorem ofPort_append (l m : List (Port × TLPData 16)) :
    ofPort port (l ++ m) = ofPort port l ++ ofPort port m := by
  simp [ofPort]

@[simp] theorem ofPort_singleton (p : Port) (tlp : TLPData 16) :
    ofPort port [(p, tlp)] = if p = port then [tlp] else [] := by
  by_cases h : p = port <;> simp [ofPort, h]

/-- The packets that are open: that of the source which is being served, and its
beginning on the bus. -/
def Open (routeFrom : Option Port) (beats : List (Port × TLPData 16)) : Prop :=
  match routeFrom with
  | some p => beats.getLast?.map (·.1) = some p ∧ ((frame 16).cut (beats.map (·.2))).2 ≠ [] ∧
      ∀ port, ((frame 16).cut (ofPort port beats)).2 = [] ↔ port ≠ p
  | none => ((frame 16).cut (beats.map (·.2))).2 = [] ∧
      ∀ port, ((frame 16).cut (ofPort port beats)).2 = []

/-- The beats that the arbiter has taken from its sources so far. -/
structure ArbiterInv (received : List (Port × TLPData 16)) (sent : List (TLPData 16)) (s : TLPArbiter)
    (beats : List (Port × TLPData 16)) : Prop where
  framed : ∀ port, (frame 16).Framed (ofPort port received)
  input : ∀ port, ofPort port received = ofPort port beats ++ (s.tlpInFifo port).items
  output : beats.map (·.2) = sent ++ s.tlpOutFifo.items
  whole : Lawful OnePacket beats
  opened : Open s.routeFrom beats

variable {q : Fifo (TLPData 16) 2}

namespace ArbiterInv

section

variable (h : ArbiterInv received sent s beats)

include h

theorem inPut (hOk : (frame 16).Admits (ofPort port received) tlp)
    (hFire : TLPArbiter.inPut port tlp s = some (s', events)) :
    events = [.received port tlp] ∧ ArbiterInv (received ++ [(port, tlp)]) sent s' beats := by
  simp only [TLPArbiter.inPut, firing] at hFire
  obtain ⟨q, ⟨-, hq⟩, rfl, rfl⟩ := hFire
  refine ⟨rfl, { h with framed := fun p => ?_, input := fun p => ?_ }⟩
  · rw [ofPort_append, ofPort_singleton]
    split
    · next hp =>
      subst hp
      exact (h.framed port).concat hOk
    · rw [List.append_nil]
      exact h.framed p
  · rw [ofPort_append, ofPort_singleton, h.input, items_update_enq hq p, List.append_assoc]

theorem outToBusGet (hFire : TLPArbiter.outToBusGet s = some (s', events)) :
    ∃ tlp, events = [.sent tlp] ∧ ArbiterInv received (sent ++ [tlp]) s' beats := by
  simp only [TLPArbiter.outToBusGet, firing] at hFire
  obtain ⟨tlp, q, hq, rfl, rfl⟩ := hFire
  refine ⟨tlp, rfl, { h with output := ?_ }⟩
  rw [h.output, hq, List.append_assoc]
  rfl

/-- The first beat of a source continues the packet of this source. -/
theorem sof_eq (hq : (s.tlpInFifo port).items = tlp :: q.items) :
    tlp.sof = ((frame 16).cut (ofPort port beats)).2.isEmpty := by
  refine ((h.framed port).mono ?_).last
  rw [h.input, hq]
  exact ⟨q.items, by simp⟩

theorem take {out : Fifo (TLPData 16) 2} {next : Option Port}
    (hq : (s.tlpInFifo port).items = tlp :: q.items) (hOut : out.items = s.tlpOutFifo.items ++ [tlp])
    (hOne : OnePacket beats (port, tlp)) (hOpen : Open next (beats ++ [(port, tlp)])) :
    ArbiterInv received sent ⟨out, Function.update s.tlpInFifo port q, next⟩ (beats ++ [(port, tlp)]) := by
  refine ⟨h.framed, fun p => ?_, ?_, h.whole.concat hOne, hOpen⟩
  · rw [h.input, items_update_deq hq p, ofPort_append, ofPort_singleton, List.append_assoc]
  · rw [List.map_append, h.output, hOut, List.append_assoc]
    rfl

end

/-- After a beat of one source, the packet of this source is open unless it has ended. -/
theorem open_concat (hOthers : ∀ p, p ≠ port → ((frame 16).cut (ofPort p beats)).2 = []) :
    Open (if tlp.eof then none else some port) (beats ++ [(port, tlp)]) := by
  have hFrame : ((frame 16).eof tlp) = tlp.eof := rfl
  have hSame : ∀ p, p ≠ port → ofPort p (beats ++ [(port, tlp)]) = ofPort p beats := by
    intro p hp
    rw [ofPort_append, ofPort_singleton, if_neg (Ne.symm hp), List.append_nil]
  have hOwn : ofPort port (beats ++ [(port, tlp)]) = ofPort port beats ++ [tlp] := by
    rw [ofPort_append, ofPort_singleton, if_pos rfl]
  cases hEof : tlp.eof with
  | true =>
    refine ⟨?_, fun p => ?_⟩
    · rw [List.map_append, List.map_singleton, Frame.cut_concat_open, hFrame, hEof, if_pos rfl]
    · by_cases hp : p = port
      · rw [hp, hOwn, Frame.cut_concat_open, hFrame, hEof, if_pos rfl]
      · rw [hSame p hp]
        exact hOthers p hp
  | false =>
    refine ⟨by simp, ?_, fun p => ?_⟩
    · rw [List.map_append, List.map_singleton, Frame.cut_concat_open, hFrame, hEof]
      simp
    · by_cases hp : p = port
      · rw [hp, hOwn, Frame.cut_concat_open, hFrame, hEof]
        simp
      · rw [hSame p hp]
        exact iff_of_true (hOthers p hp) hp

theorem firstBeat_eq_some (h : s.firstBeat = some (port, tlp, q)) :
    (s.tlpInFifo port).items = tlp :: q.items := by
  obtain ⟨p, -, hp⟩ := List.exists_of_findSome?_eq_some h
  obtain ⟨r, hDeq, hr⟩ := Option.map_eq_some_iff.mp hp
  cases hr
  exact Fifo.deq_eq_some.mp hDeq

theorem firstBeat_eq_none (h : s.firstBeat = none) (port : Port) : (s.tlpInFifo port).items = [] := by
  have hNone := List.findSome?_eq_none_iff.mp h port (List.mem_finRange port)
  rw [Option.map_eq_none_iff] at hNone
  cases hItems : (s.tlpInFifo port).items with
  | nil => rfl
  | cons x rest =>
    obtain ⟨q, hDeq, -⟩ := Fifo.exists_deq hItems
    rw [hDeq] at hNone
    cases hNone

theorem arbitrateOutgoingTLP (h : ArbiterInv received sent s beats)
    (hFire : TLPArbiter.arbitrateOutgoingTLP s = some (s', events)) :
    events = [] ∧ ∃ beats', ArbiterInv received sent s' beats' := by
  have hOpened := h.opened
  unfold TLPArbiter.arbitrateOutgoingTLP at hFire
  cases hRoute : s.routeFrom with
  | some port =>
    rw [hRoute] at hFire hOpened
    obtain ⟨hLast, hBus, hSources⟩ := hOpened
    cases hDeq : (s.tlpInFifo port).deq with
    | none =>
      simp only [hDeq, firing] at hFire
      obtain ⟨rfl, rfl⟩ := hFire
      exact ⟨rfl, beats, h⟩
    | some r =>
      obtain ⟨tlp, q⟩ := r
      simp only [hDeq, firing] at hFire
      obtain ⟨out, ⟨-, hOut⟩, rfl, rfl⟩ := hFire
      have hq := Fifo.deq_eq_some.mp hDeq
      have hSof : tlp.sof = false := by
        rw [h.sof_eq hq, List.isEmpty_eq_false_iff]
        exact fun hNil => (hSources port).mp hNil rfl
      have hOne : OnePacket beats (port, tlp) :=
        ⟨hSof.trans (List.isEmpty_eq_false_iff.mpr hBus).symm, fun _ => hLast⟩
      exact ⟨rfl, _, h.take hq hOut hOne (open_concat fun p hp => (hSources p).mpr hp)⟩
  | none =>
    rw [hRoute] at hFire hOpened
    obtain ⟨hBus, hSources⟩ := hOpened
    cases hBeat : s.firstBeat with
    | none =>
      simp only [hBeat, firing] at hFire
      obtain ⟨rfl, rfl⟩ := hFire
      exact ⟨rfl, beats, h⟩
    | some r =>
      obtain ⟨port, tlp, q⟩ := r
      have hq := firstBeat_eq_some hBeat
      have hSof : tlp.sof = true := by rw [h.sof_eq hq, hSources, List.isEmpty_nil]
      simp only [hBeat, hSof, if_true, firing] at hFire
      obtain ⟨out, ⟨-, hOut⟩, rfl, rfl⟩ := hFire
      have hOne : OnePacket beats (port, tlp) := by
        refine ⟨?_, fun hNot => ?_⟩
        · rw [Frame.Admits, hBus]
          exact hSof
        · rw [hSof] at hNot
          cases hNot
      exact ⟨rfl, _, h.take hq hOut hOne (open_concat fun p _ => hSources p)⟩

end ArbiterInv

/-- What the events of a run show. -/
def Inv (trace : List Event) (s : TLPArbiter) : Prop :=
  ∃ beats, ArbiterInv (trace.filterMap received?) (trace.filterMap sent?) s beats

variable {trace : List Event}

theorem Inv.step {action : Action} (h : Inv trace s) (hOk : Packets trace s action)
    (hFire : machine.fire action s = some (s', events)) : Inv (trace ++ events) s' := by
  obtain ⟨beats, h⟩ := h
  simp only [Inv, List.filterMap_append]
  cases action with
  | inPut port tlp =>
    obtain ⟨rfl, h'⟩ := h.inPut hOk hFire
    exact ⟨beats, by simpa [received?, sent?, List.filterMap_cons] using h'⟩
  | arbitrateOutgoingTLP =>
    obtain ⟨rfl, beats', h'⟩ := h.arbitrateOutgoingTLP hFire
    exact ⟨beats', by simpa using h'⟩
  | outToBusGet =>
    obtain ⟨tlp, rfl, h'⟩ := h.outToBusGet hFire
    exact ⟨beats, by simpa [received?, sent?, List.filterMap_cons] using h'⟩

theorem run_inv (run : machine.Run Packets s trace) : Inv trace s := by
  refine run.invariant Inv ?_ fun _ _ _ _ _ => Inv.step
  rintro _ rfl
  exact ⟨[], fun _ => Lawful.nil, fun _ => rfl, rfl, Lawful.nil, rfl, fun _ => rfl⟩

/-- How far the beats in the module are from leaving it. -/
def rank (_ : List Event) (s : TLPArbiter) : Nat :=
  s.tlpOutFifo.items.length + 2 * ∑ port, (s.tlpInFifo port).items.length

theorem advances_outToBusGet (hOut : s.tlpOutFifo.items ≠ []) :
    machine.Advances Packets received? rank trace s := by
  obtain ⟨tlp, q, hDeq, hItems⟩ := Fifo.exists_deq_of_ne_nil hOut
  refine ⟨.outToBusGet, _, _, trivial, by simp only [machine, outToBusGet, hDeq]; rfl, rfl, ?_⟩
  simp only [rank, hItems, List.length_cons]
  omega

theorem rank_take {out : Fifo (TLPData 16) 2} {next : Option Port} {trace' : List Event}
    (hq : (s.tlpInFifo port).items = tlp :: q.items) (hOut : out.items = s.tlpOutFifo.items ++ [tlp]) :
    rank trace' ⟨out, Function.update s.tlpInFifo port q, next⟩ < rank trace s := by
  have hSum := sum_update (fun _ (f : Fifo (TLPData 16) 2) => f.items.length) s.tlpInFifo port q
  simp only [rank, hq, hOut, counting] at hSum ⊢
  omega

/-- The rule takes a beat when the bus is free and the source that it waits for has one. -/
theorem advances_arbitrateOutgoingTLP (h : Inv trace s)
    (hClosed : ∀ port, ((frame 16).cut (ofPort port (trace.filterMap received?))).2 = [])
    (hOut : s.tlpOutFifo.items = []) (hSome : ∃ port, (s.tlpInFifo port).items ≠ []) :
    machine.Advances Packets received? rank trace s := by
  obtain ⟨beats, h⟩ := h
  have hOpened := h.opened
  have hRoom : s.tlpOutFifo.items.length < 2 := by simp [hOut]
  cases hRoute : s.routeFrom with
  | some port =>
    rw [hRoute] at hOpened
    have hWaits : (s.tlpInFifo port).items ≠ [] := by
      intro hNil
      have hInput := h.input port
      rw [hNil, List.append_nil] at hInput
      exact (hOpened.2.2 port).mp (hInput ▸ hClosed port) rfl
    obtain ⟨tlp, q, hDeq, hItems⟩ := Fifo.exists_deq_of_ne_nil hWaits
    obtain ⟨out, hEnq, hOutItems⟩ := Fifo.exists_enq hRoom tlp
    refine ⟨.arbitrateOutgoingTLP, ⟨out, Function.update s.tlpInFifo port q,
      if tlp.eof then none else some port⟩, [], trivial, ?_, rfl, rank_take hItems hOutItems⟩
    simp only [machine, arbitrateOutgoingTLP, hRoute, hDeq, hEnq]
    rfl
  | none =>
    rw [hRoute] at hOpened
    cases hBeat : s.firstBeat with
    | none =>
      obtain ⟨port, hPort⟩ := hSome
      exact absurd (ArbiterInv.firstBeat_eq_none hBeat port) hPort
    | some r =>
      obtain ⟨port, tlp, q⟩ := r
      have hq := ArbiterInv.firstBeat_eq_some hBeat
      have hSof : tlp.sof = true := by rw [h.sof_eq hq, hOpened.2, List.isEmpty_nil]
      obtain ⟨out, hEnq, hOutItems⟩ := Fifo.exists_enq hRoom tlp
      refine ⟨.arbitrateOutgoingTLP, ⟨out, Function.update s.tlpInFifo port q,
        if tlp.eof then none else some port⟩, [], trivial, ?_, rfl, rank_take hq hOutItems⟩
      simp only [machine, arbitrateOutgoingTLP, hRoute, hBeat, hSof, hEnq]
      rfl

/-- The beats on the bus are an interleaving of whole packets. -/
def Interleaves (beats : List (Port × TLPData 16)) (trace : List Event) : Prop :=
  trace.filterMap sent? = beats.map (·.2) ∧ Lawful OnePacket beats

theorem Inv.progress (h : Inv trace s)
    (hClosed : ∀ port, ((frame 16).cut (ofPort port (trace.filterMap received?))).2 = []) :
    (∃ beats, Interleaves beats trace ∧
      ∀ port, ofPort port beats = ofPort port (trace.filterMap received?)) ∨
    machine.Advances Packets received? rank trace s := by
  by_cases hOut : s.tlpOutFifo.items = []
  · by_cases hIn : ∀ port, (s.tlpInFifo port).items = []
    · obtain ⟨beats, h⟩ := h
      refine .inl ⟨beats, ⟨?_, h.whole⟩, fun port => ?_⟩
      · rw [h.output, hOut, List.append_nil]
      · rw [h.input, hIn, List.append_nil]
    · exact .inr (advances_arbitrateOutgoingTLP h hClosed hOut (not_forall.mp hIn))
  · exact .inr (advances_outToBusGet hOut)

/-- The arbiter sends an interleaving of the packets of its sources. -/
theorem arbitrates (run : machine.Run Packets s trace) :
    (∃ beats, Interleaves beats trace ∧
      ∀ port, ofPort port beats <+: ofPort port (trace.filterMap received?)) ∧
    ((∀ port, ((frame 16).cut (ofPort port (trace.filterMap received?))).2 = []) →
      ∃ s' trace', machine.Continues Packets (s, trace) (s', trace') ∧
        trace'.filterMap received? = trace.filterMap received? ∧
        ∃ beats, Interleaves beats trace' ∧
          ∀ port, ofPort port beats = ofPort port (trace.filterMap received?)) := by
  have hInv := run_inv run
  constructor
  · obtain ⟨beats, h⟩ := hInv
    -- what has left the output queue is a prefix of what was taken
    have hTake : (beats.take (trace.filterMap sent?).length).map (·.2) = trace.filterMap sent? := by
      rw [List.map_take, h.output, List.take_left]
    refine ⟨_, ⟨hTake.symm, h.whole.mono (List.take_prefix _ _)⟩, fun port => ?_⟩
    have hPrefix : ofPort port (beats.take (trace.filterMap sent?).length) <+: ofPort port beats :=
      ((List.take_prefix _ _).filter _).map _
    refine hPrefix.trans ?_
    rw [h.input]
    exact List.prefix_append _ _
  · intro hClosed
    refine Machine.exists_drained rank
      (fun _ _ _ _ _ => Inv.step) (fun trace' s' h' hReceived => ?_) hInv
    rw [← hReceived]
    exact h'.progress (hReceived ▸ hClosed)

end TLPArbiter

/-- Packets pass the splitter whole. The dispatcher gives every packet to the first
port whose function accepts its header, in order, and drops the packets that no port
accepts. The arbiter sends every packet of its sources once, keeps the order of each
source and never mixes two packets. -/
theorem splitter_keeps_packets {interruptMatch : TlpMatchFunction} {s : TLPDispatcher}
    {trace : List TLPDispatcher.Event}
    (run : (TLPDispatcher.machine interruptMatch).Run TLPDispatcher.Packets s trace)
    {a : TLPArbiter} {log : List TLPArbiter.Event}
    (arbiterRun : TLPArbiter.machine.Run TLPArbiter.Packets a log) :
    ((∀ port, trace.filterMap (TLPDispatcher.delivered? port) <+:
      TLPDispatcher.forPort interruptMatch port
        ((frame 16).cut (trace.filterMap TLPDispatcher.received?))) ∧
    ∃ s' trace', (TLPDispatcher.machine interruptMatch).Continues TLPDispatcher.Packets (s, trace) (s', trace') ∧
      trace'.filterMap TLPDispatcher.received? = trace.filterMap TLPDispatcher.received? ∧
      ∀ port, trace'.filterMap (TLPDispatcher.delivered? port) =
        TLPDispatcher.forPort interruptMatch port
          ((frame 16).cut (trace.filterMap TLPDispatcher.received?))) ∧
    (∃ beats, TLPArbiter.Interleaves beats log ∧
      ∀ port, TLPArbiter.ofPort port beats <+: TLPArbiter.ofPort port (log.filterMap TLPArbiter.received?)) ∧
    ((∀ port, ((frame 16).cut
        (TLPArbiter.ofPort port (log.filterMap TLPArbiter.received?))).2 = []) →
      ∃ a' log', TLPArbiter.machine.Continues TLPArbiter.Packets (a, log) (a', log') ∧
        log'.filterMap TLPArbiter.received? = log.filterMap TLPArbiter.received? ∧
        ∃ beats, TLPArbiter.Interleaves beats log' ∧ ∀ port,
          TLPArbiter.ofPort port beats = TLPArbiter.ofPort port (log.filterMap TLPArbiter.received?)) :=
  ⟨TLPDispatcher.dispatches run, TLPArbiter.arbitrates arbiterRun⟩

/-- A packet of two beats for the portals. -/
def writePacket : List (TLPData 16) :=
  [⟨true, false, 4, 0xffff, { TLPMemoryIO3DWHeader.defaultValue with format := .memWrite3dwData }.pack⟩,
    ⟨false, true, 4, 0xf000, 1⟩]

/-- A packet that no port accepts. -/
def strangePacket : List (TLPData 16) :=
  [⟨true, true, 2, 0xffff, TLPMemoryIO3DWHeader.defaultValue.pack⟩]

def completionPacket : List (TLPData 16) :=
  [⟨true, true, 0, 0xffff, { TLPCompletionHeader.defaultValue with format := .memWrite3dwData }.pack⟩]

def twoSources : List (Port × TLPData 16) :=
  completionPacket.map (portAxi, ·) ++ writePacket.map (portPortal, ·)

/-- The three packets go to the portals, nowhere and to the memory engine. Two of them
from different sources share the bus. -/
theorem splitter_keeps_packets_three_packets :
    ∃ s trace, (TLPDispatcher.machine fun _ _ => false).Run TLPDispatcher.Packets s trace ∧
      trace.filterMap TLPDispatcher.received? = writePacket ++ strangePacket ++ completionPacket ∧
    ∃ a log, TLPArbiter.machine.Run TLPArbiter.Packets a log ∧
      log.filterMap TLPArbiter.received? = twoSources ∧
    (∃ s' trace', (TLPDispatcher.machine fun _ _ => false).Continues TLPDispatcher.Packets
        (s, trace) (s', trace') ∧
      trace'.filterMap (TLPDispatcher.delivered? portPortal) = writePacket ∧
      trace'.filterMap (TLPDispatcher.delivered? portAxi) = completionPacket) ∧
    ∃ a' log', TLPArbiter.machine.Continues TLPArbiter.Packets (a, log) (a', log') ∧
      ∃ beats, TLPArbiter.Interleaves beats log' ∧ TLPArbiter.ofPort portPortal beats = writePacket ∧
        TLPArbiter.ofPort portAxi beats = completionPacket := by
  obtain ⟨⟨s, trace⟩, hExec, hTrace⟩ := Option.map_eq_some_iff.mp
    (show ((TLPDispatcher.machine fun _ _ => false).exec TLPDispatcher.Packets
      ((writePacket ++ strangePacket ++ completionPacket).flatMap fun tlp =>
        [.inFromBusPut tlp, .dispatchIncomingTLP])
      (TLPDispatcher.fresh, [])).map (fun d => d.2.filterMap TLPDispatcher.received?) =
        some (writePacket ++ strangePacket ++ completionPacket) by decide +kernel)
  obtain ⟨⟨a, log⟩, hArbiterExec, hLog⟩ := Option.map_eq_some_iff.mp
    (show (TLPArbiter.machine.exec TLPArbiter.Packets
      (twoSources.flatMap fun x => [.inPut x.1 x.2, .arbitrateOutgoingTLP, .outToBusGet])
      (TLPArbiter.fresh, [])).map (fun d => d.2.filterMap TLPArbiter.received?) =
        some twoSources by decide +kernel)
  have hRun := Machine.exec_run (M := TLPDispatcher.machine fun _ _ => false) rfl hExec
  have hArbiterRun := Machine.exec_run (M := TLPArbiter.machine) rfl hArbiterExec
  obtain ⟨⟨-, s', trace', path, -, hAll⟩, -, hDrained⟩ := splitter_keeps_packets hRun hArbiterRun
  simp only at hTrace hLog
  rw [hLog] at hDrained
  obtain ⟨a', log', arbiterPath, -, beats, hBeats, hPorts⟩ := hDrained (by decide +kernel)
  refine ⟨s, trace, hRun, hTrace, a, log, hArbiterRun, hLog, ⟨s', trace', path, ?_, ?_⟩,
    a', log', arbiterPath, beats, hBeats, hPorts portPortal, hPorts portAxi⟩
  all_goals
    rw [hAll, hTrace]
    decide +kernel

end Connectal.Pcie
