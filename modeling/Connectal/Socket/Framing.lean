import Connectal.Socket.Portal

/-! The frames of a socket stay synchronised as long as every read is complete and what
is left of unknown messages does not look like a known one. -/
namespace Connectal.Socket

open Layout Rules

namespace Message

theorem channel_hdr (m : Message) : channel m.hdr = m.method := by
  rw [channel, hdr, messageHeader_number m.short, BitVec.ofNat_toNat]
  exact BitVec.setWidth_eq m.method

theorem headerWords_hdr (m : Message) : headerWords m.hdr = m.payload.length + 1 := by
  rw [hdr, headerWords_messageHeader, Nat.mod_eq_of_lt m.short]

theorem muxHdr_eq (m : Message) (h : m.payload.length + 2 < 2 ^ 16) :
    muxHdr m = messageHeader m.port.toNat (m.payload.length + 2) := by
  have hHdr := m.headerWords_hdr
  rw [headerWords_eq_mod] at hHdr
  have hLow : (m.hdr + 1) &&& 0xffff = BitVec.ofNat 32 (m.payload.length + 2) := by
    apply BitVec.eq_of_toNat_eq
    have hMask : ((m.hdr + 1) &&& 0xffff).toNat = headerWords (m.hdr + 1) := rfl
    rw [hMask, headerWords_eq_mod, BitVec.toNat_add, BitVec.toNat_ofNat,
      show (1 : BitVec 32).toNat = 1 from rfl]
    omega
  rw [muxHdr, messageHeader, hLow, ← BitVec.ofNat_toNat]

theorem channel_muxHdr (m : Message) (h : m.payload.length + 2 < 2 ^ 16) :
    channel (muxHdr m) = m.port := by
  rw [channel, m.muxHdr_eq h, messageHeader_number h, BitVec.ofNat_toNat]
  exact BitVec.setWidth_eq m.port

end Message

namespace Transport

/-- The words of a message on the stream. -/
def frame : Transport → Message → List (BitVec 32)
  | .socket _, m => m.hdr :: m.payload
  | .mux _ _, m => muxHdr m :: m.hdr :: m.payload

theorem send_eq {t : Transport} {m : Message} (h : (t.frame m).length < 2 ^ 16) :
    t.send m = bytes (t.frame m) := by
  cases t with
  | socket i =>
    rw [send, sendSocket, m.headerWords_hdr, frame]
    exact congrArg bytes (@List.take_length _ (m.hdr :: m.payload))
  | mux ports distinct =>
    rw [send, sendSocket, m.muxHdr_eq h, headerWords_messageHeader,
      Nat.mod_eq_of_lt (show m.payload.length + 2 < 2 ^ 16 from h), frame, m.muxHdr_eq h]
    exact congrArg bytes (@List.take_length _ (_ :: m.hdr :: m.payload))

/-- No one takes the word for the header of a message. -/
def Strange : Transport → BitVec 32 → Prop
  | .socket i, w => i.wordLen (channel w) = none
  | .mux ports _, w => ∀ p ∈ ports, p.fpgaNumber ≠ channel w

/-- The words of an unknown message that no one reads. -/
def leftover : Transport → Message → List (BitVec 32)
  | .socket i, m => if i.wordLen m.method = none then m.payload else []
  | .mux ports _, m =>
    match ports.find? (·.fpgaNumber = m.port) with
    | some p => if p.interface.wordLen m.method = none then m.payload else []
    | none => m.hdr :: m.payload

/-- The calls of `handleMessage` with an unknown method that words cause which no one reads. -/
def straysOf : Transport → List (BitVec 32) → Nat
  | .socket _, ws => ws.length
  | .mux _ _, _ => 0

/-- The calls of `handleMessage` with an unknown method that a message causes. -/
def strays : Transport → Message → Nat
  | .socket i, m => if i.wordLen m.method = none then m.payload.length + 1 else 0
  | .mux ports _, m =>
    match ports.find? (·.fpgaNumber = m.port) with
    | some p => if p.interface.wordLen m.method = none then 1 else 0
    | none => 0

/-- A message that does no harm. -/
structure Harmless (t : Transport) (m : Message) : Prop where
  typed : t.Typed m
  short : (t.frame m).length < 2 ^ 16
  strange : ∀ w ∈ t.leftover m, t.Strange w

end Transport

instance (t : Transport) (w : BitVec 32) : Decidable (t.Strange w) :=
  match t with
  | .socket i => inferInstanceAs (Decidable (i.wordLen (channel w) = none))
  | .mux ports _ => inferInstanceAs (Decidable (∀ p ∈ ports, p.fpgaNumber ≠ channel w))

instance (t : Transport) (m : Message) : Decidable (t.Harmless m) :=
  decidable_of_iff
    (t.Typed m ∧ (t.frame m).length < 2 ^ 16 ∧ (t.leftover m).all (decide <| t.Strange ·) = true)
    ⟨fun h => ⟨h.1, h.2.1, by simpa using h.2.2⟩, fun h => ⟨h.typed, h.short, by simpa using h.strange⟩⟩

/-- Messages do no harm, at most eleven calls have an unknown method, and every read
gets what it asks for, or nothing when it asks for a header. -/
def Synchronised (t : Transport) : Machine.Contract Receiver Receiver.Action Event
  | trace, _, .send m => t.Harmless m ∧ ((sents trace ++ [m]).map t.strays).sum ≤ 11
  | _, _, .event cuts => cuts = [] ∨ cuts = [.upTo 0]

instance (t : Transport) (trace : List Event) (s : Receiver) (action : Receiver.Action) :
    Decidable (Synchronised t trace s action) :=
  match action with
  | .send m =>
    inferInstanceAs (Decidable (t.Harmless m ∧ ((sents trace ++ [m]).map t.strays).sum ≤ 11))
  | .event cuts => inferInstanceAs (Decidable (cuts = [] ∨ cuts = [.upTo 0]))

namespace Receiver

variable {t : Transport} {s : Receiver} {base : Buffer} {start : Nat} {w : BitVec 32}
  {ws rest : List (BitVec 32)} {i : Interface} {port : Option (BitVec 16)}

theorem recv_whole (base : Buffer) (start : Nat) (ws rest : List (BitVec 32)) (hCuts : s.cuts = []) (hStream : s.stream = bytes (ws ++ rest)) :
    s.recv base start ws.length =
      ({ s with stream := bytes rest }, base.put (4 * start) (bytes ws), 4 * ws.length) := by
  simp only [recv, hCuts, List.head?_nil, Option.getD_none, Cut.limit, hStream, take_bytes, drop_bytes,
    List.tail_nil, length_bytes]

theorem handleMessage_known (i : Interface) (port : Option (BitVec 16)) (s : Receiver)
    (hCuts : s.cuts = []) (hStream : s.stream = bytes (ws ++ rest))
    (hWord : base.word 0 = w) (hLen : i.wordLen (channel w) = some ws.length) :
    handleMessage i port s base =
      ({ s with stream := bytes rest }, base.put 4 (bytes ws), [.dispatch port (channel w) ws]) := by
  simp only [handleMessage, hWord, hLen, recv_whole _ _ ws rest hCuts hStream, Nat.mul_one]
  rw [show (4 : Nat) = 4 * 1 from rfl, Buffer.words_put]

theorem handleMessage_unknown (i : Interface) (port : Option (BitVec 16)) (s : Receiver)
    (hWord : base.word 0 = w) (hLen : i.wordLen (channel w) = none)
    (hRun : s.runaway i.className ≤ 10) (hRunning : s.exited = false) :
    handleMessage i port s base = ({ s with
      runaway := Function.update s.runaway i.className (s.runaway i.className + 1) }, base, []) := by
  simp only [handleMessage, hWord, hLen]
  rw [decide_eq_false (by omega), hRunning]

/-- The receiver after it has read a header. -/
def headed (s : Receiver) (w : BitVec 32) (rest : List (BitVec 32)) : Receiver :=
  { s with stream := bytes rest, mapBase := s.mapBase.put 0 (bytes [w]) }

theorem word_headed (s : Receiver) (w : BitVec 32) (rest : List (BitVec 32)) :
    (s.headed w rest).mapBase.word 0 = w :=
  Buffer.word_put_zero ..

theorem eventSocket_socket (hCuts : s.cuts = []) (hStream : s.stream = bytes (w :: rest))
    {s' : Receiver} {base : Buffer} {events : List Event}
    (hHandler : handleMessage i none (s.headed w rest) (s.headed w rest).mapBase = (s', base, events)) :
    eventSocket (.socket i) s = ({ s' with mapBase := base }, events) := by
  have hRead := recv_whole s.mapBase 0 [w] rest hCuts hStream
  rw [eventSocket, show (1 : Nat) = [w].length from rfl, hRead]
  show (({ (handleMessage i none (s.headed w rest) (s.headed w rest).mapBase).1 with
    mapBase := (handleMessage i none (s.headed w rest) (s.headed w rest).mapBase).2.1 } : Receiver), _) = _
  rw [hHandler]
  exact congrArg _ (congrArg (fun r => r.2.2) hHandler)

theorem eventSocket_mux {ports : List Port} {distinct : (ports.map Port.fpgaNumber).Nodup}
    (hCuts : s.cuts = []) (hStream : s.stream = bytes (w :: rest)) :
    eventSocket (.mux ports distinct) s = portalMuxHandler (channel w) ports (s.headed w rest) := by
  have hRead := recv_whole s.mapBase 0 [w] rest hCuts hStream
  rw [eventSocket, show (1 : Nat) = [w].length from rfl, hRead]
  show portalMuxHandler (channel ((s.headed w rest).mapBase.word 0)) ports (s.headed w rest) = _
  rw [word_headed]

theorem eventSocket_empty (h : s.cuts = [] ∧ s.stream = [] ∨ s.cuts = [.upTo 0]) :
    ∃ mapBase cuts, eventSocket t s = ({ s with mapBase, cuts }, []) := by
  rcases h with ⟨hCuts, hStream⟩ | hCuts
  · refine ⟨s.mapBase.put 0 [], [], ?_⟩
    simp only [eventSocket, recv, hCuts, hStream, List.take_nil, List.drop_nil, List.length_nil,
      if_true, List.tail_nil]
  · refine ⟨s.mapBase.put 0 [], [], ?_⟩
    simp only [eventSocket, recv, hCuts, List.head?_cons, Option.getD_some, Cut.limit, Nat.zero_min,
      List.take_zero, List.drop_zero, List.length_nil, if_true, List.tail_cons]

variable {n : BitVec 16} {ports : List Port} {p : Port}

theorem portalMuxHandler_none (h : ∀ p ∈ ports, p.fpgaNumber ≠ n) :
    portalMuxHandler n ports s = (s, []) := by
  induction ports with
  | nil => rfl
  | cons p ports ih =>
    have hOther : ¬ (n = p.fpgaNumber ∧ s.exited = false) :=
      fun hSame => h p (List.mem_cons_self ..) hSame.1.symm
    rw [portalMuxHandler, if_neg hOther]
    exact ih fun q hq => h q (List.mem_cons_of_mem _ hq)

/-- Only the port with the number reads and handles the message. -/
theorem portalMuxHandler_some (hFind : ports.find? (·.fpgaNumber = n) = some p)
    (distinct : (ports.map Port.fpgaNumber).Nodup) (hRunning : s.exited = false)
    (hCuts : s.cuts = []) (hStream : s.stream = bytes (w :: rest)) :
    ∃ base : Buffer, base.word 0 = w ∧ ∀ s' base' events,
      handleMessage p.interface (some n) { s with stream := bytes rest } base = (s', base', events) →
        ∃ portBase, portalMuxHandler n ports s = ({ s' with portBase }, events) := by
  induction ports with
  | nil => cases hFind
  | cons q ports ih =>
    rw [List.map_cons, List.nodup_cons] at distinct
    by_cases hSame : q.fpgaNumber = n
    · rw [List.find?_cons_of_pos (by simpa using hSame)] at hFind
      cases hFind
      subst hSame
      have hRead := recv_whole (s.portBase p.fpgaNumber) 0 [w] rest hCuts hStream
      refine ⟨_, Buffer.word_put_zero (s.portBase p.fpgaNumber) w, fun s' base' events hHandler => ?_⟩
      rw [portalMuxHandler, if_pos ⟨rfl, hRunning⟩, show (1 : Nat) = [w].length from rfl, hRead]
      simp only [Nat.mul_zero, hHandler]
      rw [portalMuxHandler_none]
      · exact ⟨_, by rw [List.append_nil]⟩
      · intro q hq hEq
        exact distinct.1 (hEq ▸ List.mem_map_of_mem hq)
    · rw [List.find?_cons_of_neg (by simpa using hSame)] at hFind
      obtain ⟨base, hBase, hHandler⟩ := ih hFind distinct.2
      refine ⟨base, hBase, ?_⟩
      rw [portalMuxHandler, if_neg (fun h => hSame h.1.symm)]
      exact hHandler

end Receiver

end Connectal.Socket
