import Connectal.Shared.SoftwareRing

/-! Whole runs of the two programs. -/
namespace Connectal.Shared

open Layout Rules

variable {c : SharedParam} {s s' : Software} {trace events : List RingEvent}

theorem SenderOk.above {mem mem' : Memory} {pc : SenderPc} (h : SenderOk c mem pc)
    (hStart : 4 ≤ mem.index sharedWrite) (hWrite : mem'.index sharedWrite = mem.index sharedWrite)
    (hAbove : ∀ i, 4 ≤ i → mem' i = mem i)
    (hRoom : c.ring.HasRoom (mem.index sharedRead) (mem.index sharedWrite) →
      c.ring.HasRoom (mem'.index sharedRead) (mem'.index sharedWrite)) :
    SenderOk c mem' pc := by
  have hGranted : ∀ {m : Message}, Granted c mem m → Granted c mem' m :=
    fun h => ⟨h.1, hRoom h.2⟩
  have hWritten : ∀ {m n}, Written mem (mem.index sharedWrite) m n →
      Written mem' (mem'.index sharedWrite) m n := by
    intro m n h
    rw [hWrite]
    exact h.congr fun i hi => hAbove i (by omega)
  have hStored : ∀ {m}, Stored mem (mem.index sharedWrite) m →
      Stored mem' (mem'.index sharedWrite) m := by
    intro m h
    rw [hWrite]
    exact h.congr fun i hi _ => hAbove i (by omega)
  cases pc with
  | idle | terminate => trivial
  | busywait m addr => exact ⟨h.1, by rw [hWrite, h.2]⟩
  | polled m addr write => exact ⟨h.1, by rw [hWrite, h.2.1], by rw [hWrite, h.2.2]⟩
  | marshall m addr i => exact ⟨hGranted h.1, by rw [hWrite, h.2.1], hWritten h.2.2⟩
  | header m => exact ⟨hGranted h.1, hWritten h.2⟩
  | pad m => exact ⟨hGranted h.1, hStored h.2.1, h.2.2⟩
  | publish m => exact ⟨hGranted h.1, hStored h.2⟩

theorem ReceiverOk.append {mem mem' : Memory} {items more : List Message} {pc : ReceiverPc}
    (h : ReceiverOk mem items pc) (hRead : mem'.index sharedRead = mem.index sharedRead) :
    ReceiverOk mem' (items ++ more) pc := by
  cases pc with
  | idle => trivial
  | polled read => exact h.trans hRead.symm
  | header => exact List.append_ne_nil_of_left_ne_nil h more
  | handler | advance =>
    obtain ⟨m, hm, h⟩ := h
    exact ⟨m, List.mem_head?_append_of_mem_head? hm, h⟩

/-- What holds in every state that the two programs reach. -/
structure RingInv (c : SharedParam) (trace : List RingEvent) (s : Software) : Prop where
  limit : s.mem.index sharedLimit = c.limit
  released : releases trace ≤ (sents trace).length
  queue : Queued c s.mem (unread trace)
  fits : ∀ m ∈ sents trace, c.Fits m
  sender : SenderOk c s.mem s.sender
  receiver : ReceiverOk s.mem (unread trace) s.receiver
  handed : handled trace =
    ((sents trace).take (releases trace + s.receiver.ahead)).map Message.content

theorem RingInv.start (h : Software.Init c s) : RingInv c [] s := by
  obtain ⟨hLimit, hWrite, hRead, -, hSender, hReceiver⟩ := h
  refine ⟨hLimit, Nat.le_refl _, ?_, by simp [sents], by rw [hSender]; trivial,
    by rw [hReceiver]; trivial, by simp [handled, sents]⟩
  rw [Queued, hWrite, hRead]
  exact .straight (Nat.le_refl _) c.ring.room (.nil _)

theorem unread_append_sents (hReleases : releases trace ≤ (sents trace).length)
    (hEvents : releases events = 0) : unread (trace ++ events) = unread trace ++ sents events := by
  rw [unread, sents_append, releases_append, hEvents, Nat.add_zero,
    List.drop_append_of_le_length hReleases]
  rfl

theorem mem_sents_of_unread {m : Message} (hm : m ∈ unread trace) : m ∈ sents trace :=
  List.mem_of_mem_drop hm

/-- Only a message that is in the ring can have been handed over before its release. -/
theorem RingInv.ahead_le (h : RingInv c trace s) :
    releases trace + s.receiver.ahead ≤ (sents trace).length := by
  have hReleased := h.released
  have hOk := h.receiver
  cases hPc : s.receiver with
  | advance hdr =>
    rw [hPc] at hOk
    obtain ⟨m, hm, -⟩ := hOk
    have hLength := List.length_pos_of_mem (List.mem_of_mem_head? hm)
    rw [unread, List.length_drop] at hLength
    rw [ReceiverPc.ahead]
    omega
  | _ =>
    rw [ReceiverPc.ahead]
    · omega
    · simp

variable {st : Option Store}

theorem RingInv.effect_of_sender {pc : SenderPc} (h : RingInv c trace s)
    (hStep : senderStep c.reqsize s.mem s.sender = some (pc, st)) :
    SenderEffect c s.mem (Software.store s.mem st) (unread trace) s.sender pc :=
  sender_effect h.limit h.queue h.sender hStep

theorem RingInv.effect_of_receiver {pc : ReceiverPc} (h : RingInv c trace s)
    (hStep : receiverStep c.reqsize s.mem s.receiver = (pc, st, events)) :
    ReceiverEffect c s.mem (Software.store s.mem st) (unread trace) s.receiver pc events :=
  receiver_effect h.limit h.queue (fun m hm => h.fits m (mem_sents_of_unread hm)) h.receiver hStep

theorem RingInv.sender_step {pc : SenderPc} (h : RingInv c trace s)
    (hStep : senderStep c.reqsize s.mem s.sender = some (pc, st)) :
    RingInv c (trace ++ s.sender.publishes.map .sent)
      { s with sender := pc, mem := Software.store s.mem st } := by
  have hEffect := h.effect_of_sender hStep
  have hSents := sents_publishes s.sender
  have hReleases : releases (s.sender.publishes.map .sent) = 0 := by
    cases s.sender <;> rfl
  have hHandled : handled (s.sender.publishes.map .sent) = [] := by
    cases s.sender <;> rfl
  have hUnread := unread_append_sents h.released hReleases
  rw [hSents] at hUnread
  refine ⟨hEffect.limit.trans h.limit, ?_, ?_, ?_, hEffect.ok, ?_, ?_⟩
  · rw [releases_append, hReleases, sents_append, List.length_append]
    exact Nat.le_add_right_of_le h.released
  · rw [hUnread]
    exact hEffect.queue
  · intro m hm
    rw [sents_append, hSents] at hm
    rcases List.mem_append.mp hm with hm | hm
    · exact h.fits m hm
    · have hOk := h.sender
      cases hPc : s.sender with
      | publish m' =>
        rw [hPc] at hm hOk
        rw [List.mem_singleton.mp hm]
        exact hOk.1.1
      | _ =>
        rw [hPc] at hm
        cases hm
  · rw [hUnread]
    exact h.receiver.append hEffect.read
  · rw [handled_append, hHandled, List.append_nil, h.handed, releases_append, hReleases,
      sents_append, Nat.add_zero, List.take_append_of_le_length h.ahead_le]

theorem RingInv.receiver_step {pc : ReceiverPc} (h : RingInv c trace s)
    (hStep : receiverStep c.reqsize s.mem s.receiver = (pc, st, events)) :
    RingInv c (trace ++ events) { s with receiver := pc, mem := Software.store s.mem st } := by
  have hEffect := h.effect_of_receiver hStep
  have hSents : sents (trace ++ events) = sents trace := by
    rw [sents_append, hEffect.sents, List.append_nil]
  have hUnread : unread (trace ++ events) = (unread trace).drop (releases events) := by
    rw [unread, unread, hSents, releases_append, List.drop_drop]
  have hReleased := hEffect.released
  rw [unread, List.length_drop] at hReleased
  refine ⟨hEffect.limit.trans h.limit, ?_, ?_, ?_, ?_, ?_, ?_⟩
  · have := h.released
    rw [releases_append, hSents]
    omega
  · rw [hUnread]
    exact hEffect.queue
  · rw [hSents]
    exact h.fits
  · exact h.sender.above h.queue.bounds.2.2.1 hEffect.write hEffect.above hEffect.room
  · rw [hUnread]
    exact hEffect.ok
  · rw [handled_append, h.handed, hSents, releases_append, List.take_add, List.map_append,
      List.append_assoc]
    have hHanded := hEffect.handed
    rw [unread] at hHanded
    rw [hHanded, ← List.map_append, ← List.take_add, Nat.add_assoc]

theorem RingInv.step {action : Software.Action} (h : RingInv c trace s)
    (hOk : Software.Fitting c trace s action)
    (hFire : Software.fire c.reqsize action s = some (s', events)) :
    RingInv c (trace ++ events) s' := by
  cases Software.fire_moves hFire with
  | call hIdle =>
    rw [List.append_nil]
    exact ⟨h.limit, h.released, h.queue, h.fits, ⟨hOk _ rfl, rfl⟩, h.receiver, h.handed⟩
  | sender hStep => exact h.sender_step hStep
  | receiver hStep => exact h.receiver_step hStep

theorem run_ringInv (run : (Software.machine c).Run (Software.Fitting c) s trace) :
    RingInv c trace s :=
  run.invariant (RingInv c) (fun _ => RingInv.start) fun _ _ _ _ _ => RingInv.step

end Connectal.Shared
