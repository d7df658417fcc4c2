import Connectal.Socket.Framing

/-! Runs of a socket portal with complete reads. -/
namespace Connectal.Socket

open Layout Rules

variable {t : Transport} {s s' : Receiver} {m : Message} {w : BitVec 32} {rest : List (BitVec 32)}

theorem update_succ_le (f : Nat → Nat) (k cls : Nat) : Function.update f k (f k + 1) cls ≤ f cls + 1 := by
  by_cases h : cls = k
  · rw [h, Function.update_self]
  · rw [Function.update_of_ne h]
    exact Nat.le_succ _

/-- What one call of `event_socket` does with the words at the front of the stream. -/
structure Takes (t : Transport) (s s' : Receiver) (words : List (BitVec 32)) (strays : Nat) : Prop where
  stream : s'.stream = bytes words
  running : s'.exited = false
  runaway : ∀ cls, s'.runaway cls ≤ s.runaway cls + strays

/-- A word that is no header is skipped. -/
theorem Receiver.skips (hCuts : s.cuts = []) (hRunning : s.exited = false)
    (hStream : s.stream = bytes (w :: rest)) (hStrange : t.Strange w)
    (hRoom : ∀ cls, s.runaway cls + t.straysOf [w] ≤ 11) :
    ∃ s', s.eventSocket t = (s', []) ∧ Takes t s s' rest (t.straysOf [w]) := by
  cases t with
  | socket i =>
    have hHandler := Receiver.handleMessage_unknown i none (s.headed w rest)
      (s.word_headed w rest) hStrange (Nat.le_of_lt_succ (hRoom i.className)) hRunning
    exact ⟨_, Receiver.eventSocket_socket hCuts hStream hHandler, rfl, hRunning,
      update_succ_le s.runaway i.className⟩
  | mux ports distinct =>
    refine ⟨s.headed w rest, ?_, rfl, hRunning, fun _ => Nat.le_refl _⟩
    rw [Receiver.eventSocket_mux hCuts hStream]
    exact Receiver.portalMuxHandler_none hStrange

/-- A message is handled, or what is left of it can be skipped. -/
theorem Receiver.handles (hCuts : s.cuts = []) (hRunning : s.exited = false)
    (hStream : s.stream = bytes (t.frame m ++ rest)) (hHarmless : t.Harmless m)
    (hRoom : ∀ cls, s.runaway cls + t.strays m ≤ 11) :
    ∃ s' events, s.eventSocket t = (s', events) ∧ sents events = [] ∧
      dispatches events = (t.delivery m).toList ∧
      Takes t s s' (t.leftover m ++ rest) (t.strays m - t.straysOf (t.leftover m)) := by
  cases t with
  | socket i =>
    have hWord := s.word_headed m.hdr (m.payload ++ rest)
    cases hLen : i.wordLen m.method with
    | some len =>
      have hHandler := Receiver.handleMessage_known i none (s.headed m.hdr (m.payload ++ rest))
        hCuts rfl hWord (by rw [m.channel_hdr, hLen, hHarmless.typed len hLen])
      refine ⟨_, _, Receiver.eventSocket_socket hCuts hStream hHandler, rfl, ?_, ?_, hRunning,
        fun cls => Nat.le_add_right _ _⟩
      · rw [m.channel_hdr, Transport.delivery, Transport.wordLen, hLen]
        rfl
      · rw [Transport.leftover, hLen]
        rfl
    | none =>
      have hHandler := Receiver.handleMessage_unknown i none (s.headed m.hdr (m.payload ++ rest))
        hWord (by rw [m.channel_hdr, hLen]) ?_ hRunning
      · refine ⟨_, _, Receiver.eventSocket_socket hCuts hStream hHandler, rfl, ?_, ?_, hRunning, ?_⟩
        · rw [Transport.delivery, Transport.wordLen, hLen]
          rfl
        · rw [Transport.leftover, if_pos hLen]
          rfl
        · intro cls
          rw [Transport.strays, Transport.leftover, if_pos hLen, if_pos hLen, Transport.straysOf,
            Nat.add_sub_cancel_left]
          exact update_succ_le s.runaway i.className cls
      · have hLess := hRoom i.className
        rw [Transport.strays, if_pos hLen] at hLess
        show s.runaway i.className ≤ 10
        omega
  | mux ports distinct =>
    rw [Receiver.eventSocket_mux hCuts hStream, m.channel_muxHdr hHarmless.short]
    cases hFind : ports.find? (·.fpgaNumber = m.port) with
    | none =>
      refine ⟨_, _, Receiver.portalMuxHandler_none ?_, rfl, ?_, ?_, hRunning,
        fun cls => Nat.le_add_right _ _⟩
      · intro p hp
        simpa using List.find?_eq_none.mp hFind p hp
      · rw [Transport.delivery, Transport.wordLen, hFind]
        rfl
      · rw [Transport.leftover, hFind]
        rfl
    | some p =>
      obtain ⟨base, hWord, hPort⟩ := Receiver.portalMuxHandler_some hFind distinct
        (show (s.headed (muxHdr m) (m.hdr :: m.payload ++ rest)).exited = false from hRunning) hCuts rfl
      cases hLen : p.interface.wordLen m.method with
      | some len =>
        have hTyped := hHarmless.typed len (by rw [Transport.wordLen, hFind]; exact hLen)
        obtain ⟨portBase, hEvent⟩ := hPort _ _ _ (Receiver.handleMessage_known p.interface (some m.port)
          _ hCuts rfl hWord (by rw [m.channel_hdr, hLen, hTyped]))
        refine ⟨_, _, hEvent, rfl, ?_, ?_, hRunning, fun cls => Nat.le_add_right _ _⟩
        · rw [m.channel_hdr, Transport.delivery, Transport.wordLen, hFind, Option.bind_some, hLen]
          rfl
        · simp only [Transport.leftover, hFind, hLen]
          rfl
      | none =>
        have hStrays : Transport.strays (.mux ports distinct) m = 1 := by
          simp only [Transport.strays, hFind, hLen, if_true]
        have hLess := hRoom p.interface.className
        rw [hStrays] at hLess
        obtain ⟨portBase, hEvent⟩ := hPort _ _ _ (Receiver.handleMessage_unknown p.interface
          (some m.port) _ hWord (by rw [m.channel_hdr, hLen]) (Nat.le_of_lt_succ hLess) hRunning)
        refine ⟨_, _, hEvent, rfl, ?_, ?_, hRunning, ?_⟩
        · rw [Transport.delivery, Transport.wordLen, hFind, Option.bind_some, hLen]
          rfl
        · simp only [Transport.leftover, hFind, hLen, if_true]
          rfl
        · rw [hStrays]
          exact update_succ_le s.runaway p.interface.className

/-- The stream holds words that no one reads, and whole messages behind them. -/
structure FrameInv (t : Transport) (trace : List Event) (s : Receiver) (done todo : List Message)
    (junk : List (BitVec 32)) : Prop where
  sent : sents trace = done ++ todo
  stream : s.stream = bytes (junk ++ todo.flatMap t.frame)
  strange : ∀ w ∈ junk, t.Strange w
  harmless : ∀ m ∈ todo, t.Harmless m
  dispatched : dispatches trace = done.filterMap t.delivery
  running : s.exited = false
  used : ∀ cls, s.runaway cls + t.straysOf junk + (todo.map t.strays).sum ≤
    ((sents trace).map t.strays).sum
  bounded : ((sents trace).map t.strays).sum ≤ 11

namespace Transport

theorem straysOf_cons (t : Transport) (w : BitVec 32) (ws : List (BitVec 32)) :
    t.straysOf (w :: ws) = t.straysOf [w] + t.straysOf ws := by
  cases t with
  | socket i => exact Nat.add_comm ..
  | mux ports distinct => rfl

theorem straysOf_leftover_le (t : Transport) (m : Message) : t.straysOf (t.leftover m) ≤ t.strays m := by
  cases t with
  | socket i =>
    simp only [straysOf, leftover, strays]
    split
    · exact Nat.le_succ _
    · exact Nat.le_refl _
  | mux ports distinct => exact Nat.zero_le _

theorem length_leftover_lt (t : Transport) (m : Message) :
    (t.leftover m).length < (t.frame m).length := by
  cases t with
  | socket i =>
    simp only [leftover, frame]
    split <;> simp
  | mux ports distinct =>
    simp only [leftover, frame]
    split
    · split <;> simp only [counting] <;> omega
    · exact Nat.lt_succ_self _

end Transport

namespace FrameInv

variable {trace : List Event} {done todo : List Message} {junk : List (BitVec 32)}

theorem init (hInit : Receiver.Init s) : FrameInv t [] s [] [] [] := by
  refine ⟨rfl, hInit.stream, (fun w hw => by cases hw), (fun m hm => by cases hm), rfl, hInit.exited,
    fun cls => ?_, Nat.zero_le _⟩
  rw [hInit.runaway]
  cases t <;> exact Nat.le_refl 0

theorem send (h : FrameInv t trace s done todo junk) (hHarmless : t.Harmless m)
    (hBound : ((sents trace ++ [m]).map t.strays).sum ≤ 11) :
    FrameInv t (trace ++ [.sent m]) { s with stream := s.stream ++ t.send m } done (todo ++ [m]) junk := by
  have hSent : sents (trace ++ [.sent m]) = sents trace ++ [m] := sents_append ..
  refine ⟨?_, ?_, h.strange, ?_, ?_, h.running, fun cls => ?_, by rw [hSent]; exact hBound⟩
  · rw [hSent, h.sent, List.append_assoc]
  · rw [h.stream, Transport.send_eq hHarmless.short, ← bytes_append, List.append_assoc,
      List.flatMap_append, List.flatMap_singleton]
  · intro m' hm'
    rcases List.mem_append.mp hm' with hm' | hm'
    · exact h.harmless m' hm'
    · exact List.mem_singleton.mp hm' ▸ hHarmless
  · rw [dispatches_append, h.dispatched]
    exact List.append_nil _
  · have hUsed := h.used cls
    rw [hSent, List.map_append, List.map_append, List.sum_append, List.sum_append]
    simp only []
    omega

theorem quiet (h : FrameInv t trace s done todo junk) (mapBase : Buffer) (cuts : List Cut) :
    FrameInv t trace { s with mapBase, cuts } done todo junk :=
  ⟨h.sent, h.stream, h.strange, h.harmless, h.dispatched, h.running, h.used, h.bounded⟩

theorem skip (h : FrameInv t trace s done todo (w :: junk)) (hCuts : s.cuts = []) :
    ∃ s', s.eventSocket t = (s', []) ∧ FrameInv t trace s' done todo junk := by
  have hUsed := h.used
  rw [t.straysOf_cons] at hUsed
  obtain ⟨s', hEvent, hTakes⟩ := Receiver.skips hCuts h.running h.stream (h.strange w (List.mem_cons_self ..))
    (fun cls => by have := hUsed cls; have := h.bounded; omega)
  refine ⟨s', hEvent, h.sent, hTakes.stream, fun v hv => h.strange v (List.mem_cons_of_mem _ hv),
    h.harmless, h.dispatched, hTakes.running, fun cls => ?_, h.bounded⟩
  have hNow := hTakes.runaway cls
  have hBefore := hUsed cls
  omega

theorem handle (h : FrameInv t trace s done (m :: todo) []) (hCuts : s.cuts = []) :
    ∃ s' events, s.eventSocket t = (s', events) ∧ sents events = [] ∧
      FrameInv t (trace ++ events) s' (done ++ [m]) todo (t.leftover m) := by
  have hHarmless := h.harmless m (List.mem_cons_self ..)
  have hUsed := h.used
  simp only [List.map_cons, List.sum_cons] at hUsed
  obtain ⟨s', events, hEvent, hNone, hDispatched, hTakes⟩ :=
    Receiver.handles hCuts h.running h.stream hHarmless
      (fun cls => by have := hUsed cls; have := h.bounded; omega)
  have hSent : sents (trace ++ events) = sents trace := by
    rw [sents_append, hNone, List.append_nil]
  refine ⟨s', events, hEvent, hNone, ?_, hTakes.stream, hHarmless.strange,
    fun m' hm' => h.harmless m' (List.mem_cons_of_mem _ hm'), ?_, hTakes.running, fun cls => ?_, ?_⟩
  · rw [hSent, h.sent, List.append_assoc]
    rfl
  · rw [dispatches_append, h.dispatched, hDispatched, List.filterMap_append]
    rfl
  · have hNow := hTakes.runaway cls
    have hBefore := hUsed cls
    have hLess := t.straysOf_leftover_le m
    rw [hSent]
    omega
  · rw [hSent]
    exact h.bounded

section

variable (h : FrameInv t trace s done todo junk)

include h

/-- A complete read of the next header. -/
theorem event (hCuts : s.cuts = []) :
    ∃ s' events done' todo' junk', s.eventSocket t = (s', events) ∧ sents events = [] ∧
      FrameInv t (trace ++ events) s' done' todo' junk' ∧
      (s.stream ≠ [] → s'.stream.length < s.stream.length) := by
  cases junk with
  | cons w junk =>
    obtain ⟨s', hEvent, hNext⟩ := h.skip hCuts
    refine ⟨s', [], done, todo, junk, hEvent, rfl, by rw [List.append_nil]; exact hNext, fun _ => ?_⟩
    rw [h.stream, hNext.stream, length_bytes, length_bytes, List.cons_append, List.length_cons]
    omega
  | nil =>
    cases todo with
    | cons m todo =>
      obtain ⟨s', events, hEvent, hNone, hNext⟩ := h.handle hCuts
      refine ⟨s', events, _, todo, _, hEvent, hNone, hNext, fun _ => ?_⟩
      have hLess := t.length_leftover_lt m
      rw [h.stream, hNext.stream, length_bytes, length_bytes, List.nil_append, List.flatMap_cons,
        List.length_append, List.length_append]
      omega
    | nil =>
      obtain ⟨mapBase, cuts, hEvent⟩ := Receiver.eventSocket_empty (t := t) (.inl ⟨hCuts, h.stream⟩)
      refine ⟨_, [], done, [], [], hEvent, rfl, ?_, fun hSome => absurd h.stream hSome⟩
      rw [List.append_nil]
      exact h.quiet mapBase cuts

theorem step {action : Receiver.Action} {events : List Event}
    (hOk : Synchronised t trace s action) (hFire : Receiver.fire t action s = some (s', events)) :
    ∃ done' todo' junk', FrameInv t (trace ++ events) s' done' todo' junk' := by
  cases action with
  | send m =>
    cases hFire
    exact ⟨done, todo ++ [m], junk, h.send hOk.1 hOk.2⟩
  | event cuts =>
    simp only [Receiver.fire, firing] at hFire
    obtain ⟨-, hFire⟩ := hFire
    have hCuts := h.quiet s.mapBase cuts
    rcases hOk with rfl | rfl
    · obtain ⟨t', events', done', todo', junk', hEvent, -, hNext, -⟩ := hCuts.event rfl
      cases hEvent.symm.trans hFire
      exact ⟨done', todo', junk', hNext⟩
    · obtain ⟨mapBase, cuts, hEvent⟩ := Receiver.eventSocket_empty (t := t)
        (s := { s with cuts := [.upTo 0] }) (.inr rfl)
      cases hEvent.symm.trans hFire
      rw [List.append_nil]
      exact ⟨done, todo, junk, h.quiet mapBase cuts⟩

/-- Complete reads bring the receiver to the end of the stream. -/
theorem exists_drained :
    ∃ s' trace', (Receiver.machine t).Continues (Synchronised t) (s, trace) (s', trace') ∧
      sents trace' = sents trace ∧ s'.stream = [] ∧
      ∃ done' todo' junk', FrameInv t trace' s' done' todo' junk' := by
  refine Machine.exists_continues
    (fun n trace' s' => sents trace' = sents trace ∧ s'.stream.length = n ∧
      ∃ done' todo' junk', FrameInv t trace' s' done' todo' junk')
    (fun trace' s' => sents trace' = sents trace ∧ s'.stream = [] ∧
      ∃ done' todo' junk', FrameInv t trace' s' done' todo' junk') ?_
    ⟨rfl, rfl, done, todo, junk, h⟩
  rintro n trace' s' ⟨hSent, rfl, done', todo', junk', h'⟩
  by_cases hEmpty : s'.stream = []
  · exact .inl ⟨hSent, hEmpty, done', todo', junk', h'⟩
  · obtain ⟨u, events, done₁, todo₁, junk₁, hEvent, hNone, hNext, hLess⟩ :=
      (h'.quiet s'.mapBase []).event rfl
    refine .inr ⟨_, hLess hEmpty, .event [], u, events, .inl rfl, ?_, ?_, rfl, done₁, todo₁, junk₁, hNext⟩
    · show Receiver.fire t (.event []) s' = _
      rw [Receiver.fire, ← hEvent]
      simp [h'.running]
    · rw [sents_append, hNone, List.append_nil, hSent]

end

end FrameInv

theorem run_frameInv {trace : List Event}
    (hRun : (Receiver.machine t).Run (Synchronised t) s trace) :
    ∃ done todo junk, FrameInv t trace s done todo junk := by
  refine hRun.invariant (fun trace s => ∃ done todo junk, FrameInv t trace s done todo junk) ?_ ?_
  · exact fun s hs => ⟨[], [], [], .init hs⟩
  · rintro trace s action s' events ⟨done, todo, junk, h⟩ hOk hFire
    exact h.step hOk hFire

/-- Where every read is complete and what is left of unknown messages is strange to the
receiver, exactly the known messages are dispatched, in order and with their payload. -/
theorem frames_are_dispatched (t : Transport) {s : Receiver} {trace : List Event}
    (hRun : (Receiver.machine t).Run (Synchronised t) s trace) :
    dispatches trace <+: (sents trace).filterMap t.delivery ∧
      ∃ s' trace', (Receiver.machine t).Continues (Synchronised t) (s, trace) (s', trace') ∧
        sents trace' = sents trace ∧ s'.stream = [] ∧
        dispatches trace' = (sents trace).filterMap t.delivery := by
  obtain ⟨done, todo, junk, h⟩ := run_frameInv hRun
  constructor
  · rw [h.dispatched, h.sent, List.filterMap_append]
    exact List.prefix_append ..
  · obtain ⟨s', trace', path, hSent, hEmpty, done', todo', junk', h'⟩ := h.exists_drained
    refine ⟨s', trace', path, hSent, hEmpty, ?_⟩
    have hNone := bytes_eq_nil (h'.stream.symm.trans hEmpty)
    have hTodo : todo' = [] := by
      cases todo' with
      | nil => rfl
      | cons m todo' =>
        rw [List.append_eq_nil_iff, List.flatMap_cons, List.append_eq_nil_iff] at hNone
        have hLess := t.length_leftover_lt m
        rw [hNone.2.1] at hLess
        cases hLess
    rw [h'.dispatched, ← hSent, h'.sent, hTodo, List.append_nil]

/-- One method, with number 0 and one word. -/
def oneMethod : Interface := ⟨0, fun method => if method = 0 then some 1 else none⟩

/-- A message to an unknown port, one to an unknown method and one that is known. -/
theorem frames_are_dispatched_three_messages :
    let t : Transport := .mux [⟨5, oneMethod⟩] (by decide)
    ∃ s trace, (Receiver.machine t).Run (Synchronised t) s trace ∧ (sents trace).length = 3 ∧
      dispatches trace = [(some 5, 0, [42])] ∧
      dispatches trace <+: (sents trace).filterMap t.delivery ∧
      ∃ s' trace', (Receiver.machine t).Continues (Synchronised t) (s, trace) (s', trace') ∧
        sents trace' = sents trace ∧ s'.stream = [] ∧
        dispatches trace' = (sents trace).filterMap t.delivery := by
  intro t
  obtain ⟨s, trace, hRun, hResult⟩ := Machine.exists_run
    (show ((Receiver.machine t).exec (Synchronised t)
      ([.send ⟨9, 0, [7], by decide⟩, .send ⟨5, 3, [8], by decide⟩, .event [.upTo 0],
        .send ⟨5, 0, [42], by decide⟩] ++ List.replicate 6 (.event []))
      (Receiver.fresh, [])).map (fun d => ((sents d.2).length, dispatches d.2)) =
        some (3, [(some 5, 0, [42])]) by decide +kernel) ⟨rfl, rfl, rfl⟩
  simp only [Prod.mk.injEq] at hResult
  exact ⟨s, trace, hRun, hResult.1, hResult.2, frames_are_dispatched t hRun⟩

/-- Two ways to lose the frames. A message to an unknown method leaves its payload in the
stream, where it is taken for a message to a known one; and when a read of a header
returns two bytes, the other two bytes of the header are taken for a part of the payload. -/
theorem frames_are_lost :
    (∃ s trace, (Receiver.machine (.socket oneMethod)).Run (Sendable (.socket oneMethod)) s trace ∧
      sents trace = [⟨0, 7, [0x00000002, 42], by decide⟩] ∧ dispatches trace = [(none, 0, [42])]) ∧
    ∃ s trace, (Receiver.machine (.socket oneMethod)).Run (Sendable (.socket oneMethod)) s trace ∧
      sents trace = [⟨0, 0, [42], by decide⟩] ∧ dispatches trace = [(none, 0, [0x002a0000])] := by
  constructor
  · obtain ⟨⟨s, trace⟩, hExec, hResult⟩ := Option.map_eq_some_iff.mp
      (show ((Receiver.machine (.socket oneMethod)).exec (Sendable (.socket oneMethod))
        [.send ⟨0, 7, [0x00000002, 42], by decide⟩, .event [], .event []] (Receiver.fresh, [])).map
          (fun d => (sents d.2, dispatches d.2)) =
            some ([⟨0, 7, [0x00000002, 42], by decide⟩], [(none, 0, [42])]) by decide +kernel)
    simp only [Prod.mk.injEq] at hResult
    exact ⟨s, trace, Machine.exec_run (M := Receiver.machine _) ⟨rfl, rfl, rfl⟩ hExec, hResult⟩
  · obtain ⟨⟨s, trace⟩, hExec, hResult⟩ := Option.map_eq_some_iff.mp
      (show ((Receiver.machine (.socket oneMethod)).exec (Sendable (.socket oneMethod))
        [.send ⟨0, 0, [42], by decide⟩, .event [.upTo 2]] (Receiver.fresh, [])).map
          (fun d => (sents d.2, dispatches d.2)) =
            some ([⟨0, 0, [42], by decide⟩], [(none, 0, [0x002a0000])]) by decide +kernel)
    simp only [Prod.mk.injEq] at hResult
    exact ⟨s, trace, Machine.exec_run (M := Receiver.machine _) ⟨rfl, rfl, rfl⟩ hExec, hResult⟩

end Connectal.Socket
