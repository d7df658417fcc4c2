import Connectal.Pcie.Types
import Connectal.Rules.Bank
import Connectal.Rules.Machine

/-! `mkTLPDispatcher` of `PcieSplitter.bsv`: packets from the bus go to the
configuration registers, to the portals or to the memory engine. -/
namespace Connectal.Pcie

open Layout Rules
open TLPData (frame)

abbrev Port := Fin 4

def portConfig : Port := 0

def portPortal : Port := 1

def portInterrupt : Port := 2

def portAxi : Port := 3

abbrev TlpMatchFunction := TLPData 16 → TLPMemoryIO3DWHeader → Bool

def configMatch : TlpMatchFunction := fun tlp hdr =>
  tlp.hit == 0x01 && (hdr.format == .memRead3dwNoData ||
    (hdr.format == .memWrite3dwData && hdr.pkttype != completion))

def axiMatch : TlpMatchFunction := fun tlp hdr =>
  tlp.hit == 0x04 && (hdr.format == .memRead3dwNoData ||
    (hdr.format == .memWrite3dwData && hdr.pkttype != completion))

def axiCompletionMatch : TlpMatchFunction := fun _ hdr =>
  hdr.format == .memWrite3dwData && hdr.pkttype == completion

/-- The source gives no function to `portInterrupt`; here it is a parameter. -/
def matchFunctions (interruptMatch : TlpMatchFunction) : Port → TlpMatchFunction :=
  ![configMatch, axiMatch, interruptMatch, axiCompletionMatch]

/-- The first port whose function accepts the header. -/
def route (interruptMatch : TlpMatchFunction) (tlp : TLPData 16) : Option Port :=
  (List.finRange 4).find? fun port =>
    matchFunctions interruptMatch port tlp (TLPMemoryIO3DWHeader.unpack tlp.data)

structure TLPDispatcher where
  tlpInFifo : Fifo (TLPData 16) 2
  tlpOutFifo : Port → Fifo (TLPData 16) 2
  routeToPort : Option Port

namespace TLPDispatcher

inductive Event where
  | received (tlp : TLPData 16)
  | delivered (port : Port) (tlp : TLPData 16)
  deriving DecidableEq

def received? : Event → Option (TLPData 16)
  | .received tlp => some tlp
  | .delivered _ _ => none

def delivered? (port : Port) : Event → Option (TLPData 16)
  | .received _ => none
  | .delivered p tlp => if p = port then some tlp else none

inductive Action where
  | inFromBusPut (tlp : TLPData 16)
  | dispatchIncomingTLP
  | outGet (port : Port)

/-- Move the first beat to a port, if that port has room. -/
def forward (s : TLPDispatcher) (rest : Fifo (TLPData 16) 2) (tlp : TLPData 16) (port : Port)
    (routeToPort : Option Port) : TLPDispatcher :=
  match (s.tlpOutFifo port).enq tlp with
  | some q => ⟨rest, Function.update s.tlpOutFifo port q, routeToPort⟩
  | none => s

def dispatchIncomingTLP (interruptMatch : TlpMatchFunction) (s : TLPDispatcher) :
    Option (TLPDispatcher × List Event) := do
  let (tlp, rest) ← s.tlpInFifo.deq
  if tlp.sof then
    match route interruptMatch tlp with
    | some port => pure (s.forward rest tlp port (if tlp.eof then s.routeToPort else some port), [])
    | none => pure ({ s with tlpInFifo := rest }, [])
  else
    match s.routeToPort with
    | some port => pure (s.forward rest tlp port (if tlp.eof then none else s.routeToPort), [])
    | none => pure ({ s with tlpInFifo := rest }, [])

def inFromBusPut (tlp : TLPData 16) (s : TLPDispatcher) : Option (TLPDispatcher × List Event) := do
  let tlpInFifo ← s.tlpInFifo.enq tlp
  pure ({ s with tlpInFifo }, [.received tlp])

def outGet (port : Port) (s : TLPDispatcher) : Option (TLPDispatcher × List Event) := do
  let (tlp, q) ← (s.tlpOutFifo port).deq
  pure ({ s with tlpOutFifo := Function.update s.tlpOutFifo port q }, [.delivered port tlp])

def fresh : TLPDispatcher := ⟨.empty, fun _ => .empty, none⟩

def machine (interruptMatch : TlpMatchFunction) : Machine TLPDispatcher Action Event where
  init s := s = fresh
  fire
    | .inFromBusPut tlp => inFromBusPut tlp
    | .dispatchIncomingTLP => dispatchIncomingTLP interruptMatch
    | .outGet port => outGet port

/-- The bus sends packets. -/
def Packets (trace : List Event) (_ : TLPDispatcher) : Action → Prop
  | .inFromBusPut tlp => (frame 16).Admits (trace.filterMap received?) tlp
  | _ => True

instance (trace : List Event) (s : TLPDispatcher) (action : Action) : Decidable (Packets trace s action) :=
  match action with
  | .inFromBusPut tlp =>
    inferInstanceAs (Decidable ((frame 16).Admits (trace.filterMap received?) tlp))
  | .dispatchIncomingTLP | .outGet _ => .isTrue trivial

/-- The port of a packet is that of its first beat. -/
def routeOf (interruptMatch : TlpMatchFunction) (p : List (TLPData 16)) : Option Port :=
  p.head?.bind (route interruptMatch)

/-- The packets that are for one port. -/
def forPort (interruptMatch : TlpMatchFunction) (port : Port)
    (c : List (List (TLPData 16)) × List (TLPData 16)) : List (TLPData 16) :=
  (c.1.filter (routeOf interruptMatch · = some port)).flatten ++
    if routeOf interruptMatch c.2 = some port then c.2 else []

variable {m : TlpMatchFunction} {s s' : TLPDispatcher} {events : List Event} {port : Port}
  {c : List (List (TLPData 16)) × List (TLPData 16)} {b : TLPData 16} {stream : List (TLPData 16)}

theorem routeOf_concat {l : List (TLPData 16)} (h : l ≠ []) : routeOf m (l ++ [b]) = routeOf m l := by
  rw [routeOf, List.head?_append_of_ne_nil _ h]
  rfl

/-- A beat is for the port of the packet that it continues. -/
theorem open_concat (l : List (TLPData 16)) (b : TLPData 16) :
    (if routeOf m (l ++ [b]) = some port then l ++ [b] else []) =
      (if routeOf m l = some port then l else []) ++
        if routeOf m (l ++ [b]) = some port then [b] else [] := by
  cases l with
  | nil => rfl
  | cons c l =>
    rw [routeOf_concat (List.cons_ne_nil c l)]
    split
    · rfl
    · rfl

theorem forPort_concat (stream : List (TLPData 16)) (b : TLPData 16) :
    forPort m port ((frame 16).cut (stream ++ [b])) =
      forPort m port ((frame 16).cut stream) ++
        if routeOf m (((frame 16).cut stream).2 ++ [b]) = some port then [b] else [] := by
  rw [forPort, forPort, List.append_assoc, ← open_concat]
  cases hEof : b.eof with
  | true =>
    rw [Frame.cut_concat_eof hEof, List.filter_append, List.flatten_append, List.append_assoc]
    congr 1
    generalize ((frame 16).cut stream).2 ++ [b] = p
    by_cases h : routeOf m p = some port <;> simp [h, show routeOf m [] = none from rfl]
  | false => rw [Frame.cut_concat_middle hEof]

theorem forPort_mono {stream' : List (TLPData 16)} (h : stream <+: stream') :
    forPort m port ((frame 16).cut stream) <+:
      forPort m port ((frame 16).cut stream') := by
  obtain ⟨more, rfl⟩ := h
  induction more using List.reverseRecOn with
  | nil => rw [List.append_nil]
  | append_singleton more b ih =>
    rw [← List.append_assoc, forPort_concat]
    exact ih.trans (List.prefix_append _ _)

/-- The beats of `consumed` are at their ports, and the register holds the port of the
packet that is open. -/
structure DispatchInv (m : TlpMatchFunction) (received : List (TLPData 16))
    (delivered : Port → List (TLPData 16)) (s : TLPDispatcher) (consumed : List (TLPData 16)) : Prop where
  framed : (frame 16).Framed received
  input : received = consumed ++ s.tlpInFifo.items
  output : ∀ port, forPort m port ((frame 16).cut consumed) =
    delivered port ++ (s.tlpOutFifo port).items
  routed : s.routeToPort = routeOf m ((frame 16).cut consumed).2

/-- The port of the first beat. -/
def target (m : TlpMatchFunction) (s : TLPDispatcher) (tlp : TLPData 16) : Option Port :=
  if tlp.sof then route m tlp else s.routeToPort

/-- The register after the first beat. -/
def nextRoute (m : TlpMatchFunction) (s : TLPDispatcher) (tlp : TLPData 16) : Option Port :=
  if tlp.sof = tlp.eof then s.routeToPort
  else if tlp.eof then none
  else (route m tlp).or s.routeToPort

variable {tlp : TLPData 16}

theorem nextRoute_of_none (h : s.target m tlp = none) : s.nextRoute m tlp = s.routeToPort := by
  unfold target at h
  unfold nextRoute
  cases hSof : tlp.sof with
  | true =>
    rw [hSof, if_pos rfl] at h
    rw [h]
    cases tlp.eof <;> rfl
  | false =>
    rw [hSof, if_neg Bool.false_ne_true] at h
    rw [h]
    cases tlp.eof <;> rfl

/-- The two halves of the rule do the same with the port of the first beat. -/
theorem dispatchIncomingTLP_eq {rest : Fifo (TLPData 16) 2} (hDeq : s.tlpInFifo.deq = some (tlp, rest)) :
    dispatchIncomingTLP m s = some (match s.target m tlp with
      | some port => s.forward rest tlp port (s.nextRoute m tlp)
      | none => { s with tlpInFifo := rest }, []) := by
  simp only [dispatchIncomingTLP, hDeq, some_bind, target, nextRoute]
  cases tlp.sof with
  | true =>
    simp only [if_true]
    cases route m tlp with
    | none => rfl
    | some port => cases tlp.eof <;> rfl
  | false =>
    simp only [Bool.false_eq_true, if_false]
    cases s.routeToPort with
    | none => rfl
    | some port => cases tlp.eof <;> rfl

/-- The rule waits, or it moves the first beat to its port; a beat without a port is dropped. -/
theorem dispatchIncomingTLP_cases (hFire : dispatchIncomingTLP m s = some (s', events)) :
    events = [] ∧ (s' = s ∨ ∃ tlp rest, s.tlpInFifo.items = tlp :: rest ∧ s'.tlpInFifo.items = rest ∧
      (∀ port, (s'.tlpOutFifo port).items = (s.tlpOutFifo port).items ++
        if s.target m tlp = some port then [tlp] else []) ∧ s'.routeToPort = s.nextRoute m tlp) := by
  cases hDeq : s.tlpInFifo.deq with
  | none => simp [dispatchIncomingTLP, hDeq] at hFire
  | some result =>
    obtain ⟨tlp, rest⟩ := result
    rw [dispatchIncomingTLP_eq hDeq, Option.some.injEq, Prod.mk.injEq] at hFire
    obtain ⟨rfl, rfl⟩ := hFire
    have hItems := Fifo.deq_eq_some.mp hDeq
    refine ⟨rfl, ?_⟩
    cases hTarget : s.target m tlp with
    | none =>
      refine .inr ⟨tlp, rest.items, hItems, rfl, fun other => ?_, (nextRoute_of_none hTarget).symm⟩
      rw [hTarget, if_neg (fun h => by cases h), List.append_nil]
    | some port =>
      cases hEnq : (s.tlpOutFifo port).enq tlp with
      | none =>
        left
        simp only [forward, hEnq]
      | some q =>
        right
        simp only [forward, hEnq]
        refine ⟨tlp, rest.items, hItems, rfl, fun other => ?_, rfl⟩
        simp only [hTarget, Option.some.injEq]
        exact items_update_enq (Fifo.enq_eq_some.mp hEnq).2 other

variable {received consumed : List (TLPData 16)} {delivered : Port → List (TLPData 16)}

namespace DispatchInv

variable (h : DispatchInv m received delivered s consumed)

include h

theorem inFromBusPut (hOk : (frame 16).Admits received tlp)
    (hFire : TLPDispatcher.inFromBusPut tlp s = some (s', events)) :
    events = [.received tlp] ∧ DispatchInv m (received ++ [tlp]) delivered s' consumed := by
  simp only [TLPDispatcher.inFromBusPut, firing] at hFire
  obtain ⟨q, ⟨-, hq⟩, rfl, rfl⟩ := hFire
  refine ⟨rfl, { h with framed := h.framed.concat hOk, input := ?_ }⟩
  rw [hq, h.input, List.append_assoc]

theorem dispatchIncomingTLP (hFire : TLPDispatcher.dispatchIncomingTLP m s = some (s', events)) :
    events = [] ∧ ∃ consumed', DispatchInv m received delivered s' consumed' := by
  obtain ⟨rfl, rfl | ⟨tlp, rest, hItems, hRest, hOut, hRoute⟩⟩ := dispatchIncomingTLP_cases hFire
  · exact ⟨rfl, consumed, h⟩
  · have hInput : received = consumed ++ [tlp] ++ rest := by
      rw [h.input, hItems, List.append_assoc]
      rfl
    have hSof : tlp.sof = ((frame 16).cut consumed).2.isEmpty :=
      (h.framed.mono ⟨rest, hInput.symm⟩).last
    have hTarget : s.target m tlp = routeOf m (((frame 16).cut consumed).2 ++ [tlp]) := by
      rw [target, hSof, h.routed]
      cases hOpen : ((frame 16).cut consumed).2 with
      | nil => rfl
      | cons c l =>
        rw [routeOf_concat (List.cons_ne_nil c l)]
        rfl
    refine ⟨rfl, consumed ++ [tlp], h.framed, hRest ▸ hInput, fun port => ?_, ?_⟩
    · rw [forPort_concat, h.output, hOut, List.append_assoc, hTarget]
    · rw [hRoute, nextRoute]
      cases hEof : tlp.eof with
      | true =>
        rw [Frame.cut_concat_eof hEof]
        cases hStart : tlp.sof with
        | true =>
          rw [if_pos rfl, h.routed, List.isEmpty_iff.mp (hSof.symm.trans hStart)]
        | false => rfl
      | false =>
        rw [Frame.cut_concat_middle hEof, ← hTarget, target]
        cases hStart : tlp.sof with
        | true =>
          have hNone : s.routeToPort = none := by
            rw [h.routed, List.isEmpty_iff.mp (hSof.symm.trans hStart)]
            rfl
          rw [hNone, Option.or_none]
          rfl
        | false => rfl

theorem outGet (hFire : TLPDispatcher.outGet port s = some (s', events)) :
    ∃ tlp, events = [.delivered port tlp] ∧ DispatchInv m received
      (fun p => delivered p ++ if port = p then [tlp] else []) s' consumed := by
  simp only [TLPDispatcher.outGet, firing] at hFire
  obtain ⟨tlp, q, hq, rfl, rfl⟩ := hFire
  refine ⟨tlp, rfl, { h with output := fun p => ?_ }⟩
  rw [h.output, items_update_deq hq p, List.append_assoc]

/-- Every port gets a beginning of the packets that are for it. -/
theorem delivered_prefix (port : Port) :
    delivered port <+: forPort m port ((frame 16).cut received) := by
  have hConsumed : delivered port <+: forPort m port ((frame 16).cut consumed) := by
    rw [h.output]
    exact List.prefix_append _ _
  refine hConsumed.trans (forPort_mono ?_)
  rw [h.input]
  exact List.prefix_append _ _

end DispatchInv

/-- What the events of a run show. -/
def Inv (m : TlpMatchFunction) (trace : List Event) (s : TLPDispatcher) : Prop :=
  ∃ consumed, DispatchInv m (trace.filterMap received?) (fun port => trace.filterMap (delivered? port)) s
    consumed

variable {trace : List Event}

theorem Inv.step {action : Action} (h : Inv m trace s) (hOk : Packets trace s action)
    (hFire : (machine m).fire action s = some (s', events)) : Inv m (trace ++ events) s' := by
  obtain ⟨consumed, h⟩ := h
  simp only [Inv, List.filterMap_append]
  cases action with
  | inFromBusPut tlp =>
    obtain ⟨rfl, h'⟩ := h.inFromBusPut hOk hFire
    exact ⟨consumed, by simpa [List.filterMap_cons, received?, delivered?] using h'⟩
  | dispatchIncomingTLP =>
    obtain ⟨rfl, consumed', h'⟩ := h.dispatchIncomingTLP hFire
    exact ⟨consumed', by simpa using h'⟩
  | outGet port =>
    obtain ⟨tlp, rfl, h'⟩ := h.outGet hFire
    refine ⟨consumed, ?_⟩
    convert h' using 1
    · simp [received?, List.filterMap_cons]
    · funext p
      by_cases hPort : port = p <;> simp [delivered?, hPort]

theorem run_inv (run : (machine m).Run Packets s trace) : Inv m trace s := by
  refine run.invariant (Inv m) ?_ fun _ _ _ _ _ => Inv.step
  rintro _ rfl
  exact ⟨[], Lawful.nil, rfl, fun port => rfl, rfl⟩

/-- How far the beats in the module are from leaving it. -/
def rank (_ : List Event) (s : TLPDispatcher) : Nat :=
  2 * s.tlpInFifo.items.length + ∑ port, (s.tlpOutFifo port).items.length

theorem advances_outGet (hOut : (s.tlpOutFifo port).items ≠ []) :
    (machine m).Advances Packets received? rank trace s := by
  obtain ⟨tlp, q, hDeq, hItems⟩ := Fifo.exists_deq_of_ne_nil hOut
  refine ⟨.outGet port, _, _, trivial, by simp only [machine, outGet, hDeq]; rfl, rfl, ?_⟩
  have hSum := sum_update (fun _ (f : Fifo (TLPData 16) 2) => f.items.length) s.tlpOutFifo port q
  simp only [rank, hItems, List.length_cons] at hSum ⊢
  omega

theorem advances_dispatchIncomingTLP (hOut : ∀ port, (s.tlpOutFifo port).items = [])
    (hIn : s.tlpInFifo.items ≠ []) : (machine m).Advances Packets received? rank trace s := by
  obtain ⟨tlp, r, hDeq, hItems⟩ := Fifo.exists_deq_of_ne_nil hIn
  refine ⟨.dispatchIncomingTLP, _, [], trivial, dispatchIncomingTLP_eq hDeq, rfl, ?_⟩
  cases hTarget : s.target m tlp with
  | none =>
    simp only [rank, hItems, List.length_cons]
    omega
  | some port =>
    obtain ⟨q, hEnq, hq⟩ := Fifo.exists_enq_nil (hOut port) tlp
    have hSum := sum_update (fun _ (f : Fifo (TLPData 16) 2) => f.items.length) s.tlpOutFifo port q
    simp only [forward, hEnq, rank, hItems, hq, hOut, counting] at hSum ⊢
    omega

/-- All beats that have come in are at their ports, or some of them can be moved on. -/
theorem Inv.progress (h : Inv m trace s) :
    (∀ port, trace.filterMap (delivered? port) =
      forPort m port ((frame 16).cut (trace.filterMap received?))) ∨
    (machine m).Advances Packets received? rank trace s := by
  by_cases hOut : ∀ port, (s.tlpOutFifo port).items = []
  · by_cases hIn : s.tlpInFifo.items = []
    · obtain ⟨consumed, h⟩ := h
      refine .inl fun port => ?_
      have hInput := h.input
      have hOutput := h.output port
      rw [hIn, List.append_nil] at hInput
      rw [hOut port, List.append_nil] at hOutput
      rw [← hOutput, hInput]
    · exact .inr (advances_dispatchIncomingTLP hOut hIn)
  · obtain ⟨port, hPort⟩ := not_forall.mp hOut
    exact .inr (advances_outGet hPort)

/-- The dispatcher gives every packet to its port, whole and in order, and drops the
other packets. -/
theorem dispatches (run : (machine m).Run Packets s trace) :
    (∀ port, trace.filterMap (delivered? port) <+:
      forPort m port ((frame 16).cut (trace.filterMap received?))) ∧
    ∃ s' trace', (machine m).Continues Packets (s, trace) (s', trace') ∧
      trace'.filterMap received? = trace.filterMap received? ∧
      ∀ port, trace'.filterMap (delivered? port) =
        forPort m port ((frame 16).cut (trace.filterMap received?)) := by
  have hInv := run_inv run
  refine ⟨hInv.elim fun _ h => h.delivered_prefix, ?_⟩
  refine Machine.exists_drained rank (fun _ _ _ _ _ => Inv.step)
    (fun trace' s' h' hReceived => ?_) hInv
  rw [← hReceived]
  exact h'.progress

end TLPDispatcher
end Connectal.Pcie
