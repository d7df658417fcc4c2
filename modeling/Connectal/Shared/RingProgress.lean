import Connectal.Shared.RingRun

/-! From every state the two programs can bring everything that was sent, and the call
that is under way, to the handler, if the ring is large enough for the poll of the sender. -/
namespace Connectal.Shared

open Layout Rules

variable {c : SharedParam} {s s' : Software} {trace events : List RingEvent}

/-- A bound on the steps that the receiver needs until it finds the ring empty. -/
def receiverWork (items : List Message) (pc : ReceiverPc) : Nat :=
  items.length * 65542 + match pc with
    | .idle => if items = [] then 0 else 65541
    | .polled _ => if items = [] then 1 else 65540
    | .header => 65539
    | .handler hdr got => 2 + (headerWords hdr - got.length)
    | .advance _ => 1

theorem headerWords_lt (hdr : BitVec 32) : headerWords hdr < 65536 := by
  rw [headerWords, BitVec.toNat_and]
  exact Nat.lt_of_le_of_lt Nat.and_le_right (by decide)

/-- A step of the receiver brings the end closer. -/
theorem RingInv.receiver_nearer {pc : ReceiverPc} {st : Option Store} (h : RingInv c trace s)
    (hStep : receiverStep c.reqsize s.mem s.receiver = (pc, st, events))
    (hWork : s.receiver ≠ .idle ∨ unread trace ≠ []) :
    receiverWork (unread (trace ++ events)) pc < receiverWork (unread trace) s.receiver := by
  have hOk := h.receiver
  cases hPc : s.receiver with
  | idle =>
    rw [hPc] at hStep hWork
    cases hStep
    have hSome : unread trace ≠ [] := by simpa using hWork
    rw [List.append_nil, receiverWork, receiverWork, if_neg hSome, if_neg hSome]
    omega
  | polled read =>
    rw [hPc] at hStep hOk
    cases hStep
    have hEmpty := h.queue.read_eq_write_iff
    rw [← (hOk : read = _)] at hEmpty
    rw [List.append_nil]
    by_cases hMeet : read = s.mem.index sharedWrite
    · rw [if_neg (not_not_intro hMeet), receiverWork, receiverWork, if_pos (hEmpty.mp hMeet),
        if_pos (hEmpty.mp hMeet)]
      omega
    · rw [if_pos hMeet, receiverWork, receiverWork, if_neg (mt hEmpty.mpr hMeet)]
      omega
  | header =>
    rw [hPc] at hStep
    cases hStep
    have hLess := headerWords_lt (s.mem (s.mem.index sharedRead))
    rw [List.append_nil]
    split <;> rw [receiverWork, receiverWork] <;> omega
  | handler hdr got =>
    rw [hPc, receiverStep] at hStep
    split at hStep
    · cases hStep
      rw [List.append_nil, receiverWork, receiverWork, List.length_append, List.length_singleton]
      omega
    · cases hStep
      rw [unread_append_sents h.released rfl, receiverWork, receiverWork]
      simp [sents]
      omega
  | advance hdr =>
    rw [hPc] at hStep hOk
    cases hStep
    obtain ⟨m, hm, -⟩ := hOk
    have hLength := List.length_pos_of_mem (List.mem_of_mem_head? hm)
    have hLength' : (unread (trace ++ [.released])).length + 1 = (unread trace).length := by
      rw [unread, List.length_drop] at hLength ⊢
      rw [unread, List.length_drop, sents_append, releases_append]
      simp [sents, releases] at hLength ⊢
      omega
    rw [receiverWork, receiverWork]
    split_ifs <;> omega

/-- The receiver alone empties the ring. -/
theorem exists_empty (h : RingInv c trace s) :
    ∃ s' trace', (Software.machine c).Continues (Software.Fitting c) (s, trace) (s', trace') ∧
      RingInv c trace' s' ∧ s'.sender = s.sender ∧ sents trace' = sents trace ∧
      unread trace' = [] ∧ s'.receiver = .idle := by
  refine Machine.exists_continues
    (fun n t u => n = receiverWork (unread t) u.receiver ∧ RingInv c t u ∧ u.sender = s.sender ∧
      sents t = sents trace)
    (fun t u => RingInv c t u ∧ u.sender = s.sender ∧ sents t = sents trace ∧ unread t = [] ∧
      u.receiver = .idle) ?_ ⟨rfl, h, rfl, rfl⟩
  rintro n t u ⟨rfl, hInv, hSender, hSents⟩
  by_cases hDone : u.receiver = .idle ∧ unread t = []
  · exact .inl ⟨hInv, hSender, hSents, hDone.2, hDone.1⟩
  · refine .inr ⟨_, hInv.receiver_nearer rfl (by tauto), .receiver, _, _,
      (fun m hm => by cases hm), rfl, rfl, hInv.receiver_step rfl, hSender, ?_⟩
    rw [sents_append, (hInv.effect_of_receiver rfl).sents, List.append_nil, hSents]

/-- A bound on the steps that the sender needs for its call, once the ring is empty. -/
def senderWork : SenderPc → Nat
  | .idle => 0
  | .terminate => 1
  | .publish _ => 2
  | .pad _ => 3
  | .header _ => 4
  | .marshall m _ i => 5 + (m.payload.length - i)
  | .polled m _ _ => 6 + m.payload.length
  | .busywait m _ => 7 + m.payload.length

def SenderPc.Polling : SenderPc → Prop
  | .busywait _ _ | .polled _ _ _ => True
  | _ => False

section

variable (hLarge : 4 + 2 * reqwords c.reqsize < c.limit)

include hLarge

/-- A step of the sender brings the end of the call closer, if the poll succeeds. -/
theorem RingInv.sender_nearer (h : RingInv c trace s) (hSender : s.sender ≠ .idle)
    (hEmpty : s.sender.Polling → unread trace = []) :
    ∃ pc st, senderStep c.reqsize s.mem s.sender = some (pc, st) ∧
      senderWork pc < senderWork s.sender ∧ s.sender.publishes ++ pc.pending = s.sender.pending ∧
      (pc.Polling → s.sender.Polling ∧ s.sender.publishes = []) := by
  have hOk := h.sender
  cases hPc : s.sender with
  | idle => exact absurd hPc hSender
  | busywait m addr =>
    exact ⟨_, _, rfl, by simp only [senderWork]; omega, rfl, fun _ => ⟨trivial, rfl⟩⟩
  | polled m addr write =>
    rw [hPc] at hOk hEmpty
    obtain ⟨-, -, rfl⟩ := hOk
    have hQueue := h.queue
    rw [hEmpty trivial] at hQueue
    have hRoom := Ring.hasRoom_of_empty hQueue hLarge
    rw [senderStep, h.limit, if_pos ((SharedParam.avail_iff _ _).mpr hRoom)]
    exact ⟨_, _, rfl, by simp only [senderWork]; omega, rfl, False.elim⟩
  | marshall m addr i =>
    rw [senderStep]
    cases hx : m.payload[i]? with
    | none => exact ⟨_, _, rfl, by simp only [senderWork]; omega, rfl, False.elim⟩
    | some x =>
      have hi := (List.getElem_of_getElem? hx).1
      exact ⟨_, _, rfl, by simp only [senderWork]; omega, rfl, False.elim⟩
  | header m =>
    rw [senderStep]
    refine ⟨_, _, rfl, ?_⟩
    split <;> exact ⟨by simp only [senderWork]; omega, rfl, False.elim⟩
  | pad | publish | terminate => exact ⟨_, _, rfl, by simp only [senderWork]; omega, rfl, False.elim⟩

/-- The sender alone ends its call, if the ring is empty. -/
theorem exists_sent (h : RingInv c trace s) (hEmpty : unread trace = []) :
    ∃ s' trace', (Software.machine c).Continues (Software.Fitting c) (s, trace) (s', trace') ∧
      RingInv c trace' s' ∧ s'.sender = .idle ∧ sents trace' = sents trace ++ s.sender.pending := by
  refine Machine.exists_continues
    (fun n t u => n = senderWork u.sender ∧ RingInv c t u ∧ (u.sender.Polling → unread t = []) ∧
      sents t ++ u.sender.pending = sents trace ++ s.sender.pending)
    (fun t u => RingInv c t u ∧ u.sender = .idle ∧ sents t = sents trace ++ s.sender.pending) ?_
    ⟨rfl, h, fun _ => hEmpty, rfl⟩
  rintro n t u ⟨rfl, hInv, hPolling, hSents⟩
  by_cases hDone : u.sender = .idle
  · rw [hDone, SenderPc.pending, List.append_nil] at hSents
    exact .inl ⟨hInv, hDone, hSents⟩
  · obtain ⟨pc, st, hStep, hLess, hPending, hStay⟩ := hInv.sender_nearer hLarge hDone hPolling
    refine .inr ⟨_, hLess, .sender, _, u.sender.publishes.map .sent, (fun m hm => by cases hm), ?_, rfl,
      hInv.sender_step hStep, fun hPc => ?_, ?_⟩
    · show Software.fire c.reqsize .sender u = _
      simp [Software.fire, hStep]
    · obtain ⟨hOld, hNone⟩ := hStay hPc
      rw [hNone, List.map_nil, List.append_nil]
      exact hPolling hOld
    · rw [sents_append, sents_publishes, List.append_assoc, hPending, hSents]

/-- Everything that was sent or is about to be sent can be handed over. -/
theorem exists_all_handled (h : RingInv c trace s) :
    ∃ s' trace', (Software.machine c).Continues (Software.Fitting c) (s, trace) (s', trace') ∧
      sents trace' = sents trace ++ s.sender.pending ∧ s'.sender = .idle ∧
      handled trace' = (sents trace').map Message.content := by
  obtain ⟨s₁, trace₁, path₁, hInv₁, hSender₁, hSents₁, hEmpty₁, -⟩ := exists_empty h
  obtain ⟨s₂, trace₂, path₂, hInv₂, hSender₂, hSents₂⟩ := exists_sent hLarge hInv₁ hEmpty₁
  obtain ⟨s₃, trace₃, path₃, hInv₃, hSender₃, hSents₃, hEmpty₃, hIdle⟩ := exists_empty hInv₂
  refine ⟨s₃, trace₃, path₁.trans (path₂.trans path₃), ?_, by rw [hSender₃, hSender₂], ?_⟩
  · rw [hSents₃, hSents₂, hSents₁, hSender₁]
  · have hAll := List.drop_eq_nil_iff.mp hEmpty₃
    rw [hInv₃.handed, List.take_of_length_le (by omega)]

end

/-- In a ring without room for two messages the poll never succeeds. -/
theorem sents_eq_nil (hSmall : c.limit ≤ 4 + 2 * reqwords c.reqsize)
    (run : (Software.machine c).Run (Software.Fitting c) s trace) : sents trace = [] := by
  suffices h : RingInv c trace s ∧ sents trace = [] ∧ (s.sender = .idle ∨ s.sender.Polling) from h.2.1
  refine run.invariant (fun trace s => RingInv c trace s ∧ sents trace = [] ∧
    (s.sender = .idle ∨ s.sender.Polling)) ?_ ?_
  · exact fun s hs => ⟨.start hs, rfl, .inl hs.2.2.2.2.1⟩
  · rintro trace s action s' events ⟨hInv, hNone, hSender⟩ hOk hFire
    refine ⟨hInv.step hOk hFire, ?_⟩
    cases Software.fire_moves hFire with
    | call hIdle => exact ⟨by rw [List.append_nil, hNone], .inr trivial⟩
    | receiver hStep =>
      rw [sents_append, hNone, (hInv.effect_of_receiver hStep).sents]
      exact ⟨rfl, hSender⟩
    | sender hStep =>
      have hSenderOk := hInv.sender
      cases hPc : s.sender with
      | busywait m addr =>
        rw [hPc] at hStep
        cases hStep
        exact ⟨by rw [sents_append, hNone]; rfl, .inr trivial⟩
      | polled m addr write =>
        rw [hPc] at hStep hSenderOk
        obtain ⟨-, -, rfl⟩ := hSenderOk
        have hMeet := hInv.queue.read_eq_write_iff.mpr (by rw [unread, hNone, List.drop_nil])
        rw [senderStep, hInv.limit, if_neg] at hStep
        · cases hStep
          exact ⟨by rw [sents_append, hNone]; rfl, .inr trivial⟩
        · rw [SharedParam.avail_iff, Ring.HasRoom, if_pos hMeet.le, SharedParam.ring_limit,
            SharedParam.ring_reserve, SharedParam.ring_start]
          omega
      | idle =>
        rw [hPc] at hStep
        cases hStep
      | _ =>
        rw [hPc] at hSender
        exact hSender.elim (fun h => by cases h) False.elim

/-- What holds of the ring in a state that was reached with a history. -/
structure RingCorrect (c : SharedParam) (s : Software) (trace : List RingEvent) : Prop where
  handed : handled trace <+: (sents trace).map Message.content
  intact : c.ring.Queue (Stored s.mem) Message.size (s.mem.index sharedRead) (unread trace)
    (s.mem.index sharedWrite)
  read : 4 ≤ s.mem.index sharedRead ∧ s.mem.index sharedRead + reqwords c.reqsize < c.limit
  write : 4 ≤ s.mem.index sharedWrite ∧ s.mem.index sharedWrite + reqwords c.reqsize < c.limit
  empty : s.mem.index sharedRead = s.mem.index sharedWrite ↔ unread trace = []
  spares : ∀ action s' events, Software.Fitting c trace s action →
    (Software.machine c).fire action s = some (s', events) →
      ∀ i, c.ring.Used (s.mem.index sharedRead) (s.mem.index sharedWrite) i → s'.mem i = s.mem i

theorem RingInv.correct (h : RingInv c trace s) : RingCorrect c s trace := by
  have hBounds := h.queue.bounds
  refine ⟨?_, h.queue, ⟨hBounds.1, hBounds.2.1⟩, ⟨hBounds.2.2.1, hBounds.2.2.2⟩,
    h.queue.read_eq_write_iff, fun action s' events hOk hFire i hUsed => ?_⟩
  · rw [h.handed]
    exact (List.take_prefix _ _).map _
  · cases Software.fire_moves hFire with
    | call hIdle => rfl
    | sender hStep => exact (h.effect_of_sender hStep).spares i hUsed
    | receiver hStep => exact (h.effect_of_receiver hStep).above i (h.queue.start_le hUsed)

/-- Along every interleaving the ring is a queue of messages. All that is sent can be
handed over if the ring has room for two messages; in a smaller one nothing is ever sent. -/
theorem shared_ring_is_queue (c : SharedParam)
    (run : (Software.machine c).Run (Software.Fitting c) s trace) :
    RingCorrect c s trace ∧
    (4 + 2 * reqwords c.reqsize < c.limit → ∃ s' trace',
      (Software.machine c).Continues (Software.Fitting c) (s, trace) (s', trace') ∧
      sents trace' = sents trace ++ s.sender.pending ∧ s'.sender = .idle ∧
      handled trace' = (sents trace').map Message.content) ∧
    (c.limit ≤ 4 + 2 * reqwords c.reqsize → sents trace = []) := by
  have hInv := run_ringInv run
  exact ⟨hInv.correct, fun hLarge => exists_all_handled hLarge hInv,
    fun hSmall => sents_eq_nil hSmall run⟩

theorem shared_ring_is_queue_one_message : ∃ s trace,
    (Software.machine ringOfTwenty).Run (Software.Fitting ringOfTwenty) s trace ∧
      handled trace = [(1, [7, 8])] ∧ s.mem.index sharedRead = 8 ∧
      RingCorrect ringOfTwenty s trace ∧ ∃ s' trace', (Software.machine ringOfTwenty).Continues
        (Software.Fitting ringOfTwenty) (s, trace) (s', trace') ∧
        sents trace' = sents trace ++ s.sender.pending ∧ s'.sender = .idle ∧
        handled trace' = (sents trace').map Message.content := by
  obtain ⟨s, trace, run, hResult⟩ := Machine.exists_run
    (show ((Software.machine ringOfTwenty).exec (Software.Fitting ringOfTwenty)
      (.call twoWords :: List.replicate 9 .sender ++ List.replicate 7 .receiver)
      (Software.fresh ringOfTwenty, [])).map
        (fun d => (handled d.2, d.1.mem.index sharedRead)) = some ([(1, [7, 8])], 8) by decide +kernel) ⟨rfl, rfl, rfl, rfl, rfl, rfl⟩
  have h := shared_ring_is_queue ringOfTwenty run
  simp only [Prod.mk.injEq] at hResult
  exact ⟨s, trace, run, hResult.1, hResult.2, h.1, h.2.1 (by decide)⟩

/-- A ring of eight words, where only messages without a payload fit. -/
def ringOfEight : SharedParam := ⟨4, 32, by decide, by decide⟩

def noWords : Message := ⟨1, [], one_ne_pad⟩

/-- The sender waits in an empty ring for ever, although its message fits. -/
theorem small_ring_never_hands_over :
    (∃ s trace, (Software.machine ringOfEight).Run (Software.Fitting ringOfEight) s trace ∧
      s.sender.pending = [noWords]) ∧
    4 + reqwords ringOfEight.reqsize < ringOfEight.limit ∧ ringOfEight.Fits noWords ∧
    ∀ s trace, (Software.machine ringOfEight).Run (Software.Fitting ringOfEight) s trace →
      handled trace = [] := by
  refine ⟨?_, by decide, by decide, fun s trace run => ?_⟩
  · obtain ⟨s, trace, run, hResult⟩ := Machine.exists_run
      (show ((Software.machine ringOfEight).exec (Software.Fitting ringOfEight)
        [.call noWords, .sender, .sender] (Software.fresh ringOfEight, [])).map
          (fun d => d.1.sender.pending) = some [noWords] by decide +kernel) ⟨rfl, rfl, rfl, rfl, rfl, rfl⟩
    exact ⟨s, trace, run, hResult⟩
  · rw [(run_ringInv run).handed, sents_eq_nil (by decide) run]
    simp

end Connectal.Shared
