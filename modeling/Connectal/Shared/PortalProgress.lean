import Connectal.Shared.PortalRun

/-! The hardware alone brings every published message to its method. -/
namespace Connectal.Shared

open Rules

namespace RequestSystem

/-- Steps for the words and the indices that are on their way. -/
def pending (s : RequestSystem) : Nat :=
  s.portal.lanes.items.length + 3 * s.portal.inFifo.items.length + 4 * s.dataPipe.length +
    5 * s.fetches.length + s.writes.length

/-- Steps up to the next idle state, where at most `room` words are behind the tail. -/
def rank (room : Nat) : PortalState → Nat
  | .idle => 0
  | .waiting => 1
  | .updateTail => 3
  | .drain | .messageHeaderRequested | .messageRequested => 4
  | .requestMessage => 5 + 3 * room
  | .tailRequested => 6 + 3 * room
  | .headRequested => 7 + 3 * room

def work (room : Nat) (s : RequestSystem) : Nat := s.pending + rank room s.portal.reqState

/-- An action of the hardware that comes closer to the next idle state. -/
def Advances (c : SharedParam) (room : Nat) (trace : List PortalEvent) (s : RequestSystem) : Prop :=
  ∃ action s' events, OneLap c trace s action ∧ fire c.reqsize action s = some (s', events) ∧
    sentMessages events = [] ∧ s'.work room < s.work room

section Fires

variable {c : SharedParam} {room : Nat} {trace : List PortalEvent} {s : RequestSystem}

theorem fetch_advances {i : Nat} {rest : List Nat} (hFetches : s.fetches = i :: rest)
    (hOk : i = sharedLimit → s.Readable trace) : Advances c room trace s := by
  refine ⟨.fetch, _, [], ?_, by rw [fire, fetch, hFetches]; rfl, rfl, ?_⟩
  · intro hHead
    rw [hFetches] at hHead
    exact hOk (Option.some.inj hHead)
  · simp only [work, pending, hFetches, counting, List.tail_cons]
    omega

variable {rest : List (Word × Word)}

theorem demuxwords_advances {w : Word × Word}
    (hPipe : s.dataPipe = w :: rest) (hIn : s.portal.inFifo.items = [])
    (hState : s.portal.reqState ≠ .headRequested ∧ s.portal.reqState ≠ .tailRequested) :
    Advances c room trace s := by
  obtain ⟨inFifo, hEnq, hItems⟩ := Fifo.exists_enq_nil hIn w
  refine ⟨.demuxwords, _, [], hState, by
    simp only [fire, demuxwords, hPipe, List.head?_cons, some_bind, hEnq]
    rfl, rfl, ?_⟩
  simp only [work, pending, hPipe, hItems, hIn, counting, List.tail_cons]
  omega

theorem tofifos_advances {w : Word × Word}
    (hIn : s.portal.inFifo.items = w :: rest) (hLanes : s.portal.lanes.items = []) :
    Advances c room trace s := by
  obtain ⟨inFifo, hDeq, hItems⟩ := Fifo.exists_deq hIn
  obtain ⟨first, hFirst, hOne⟩ := Fifo.exists_enq_nil hLanes w.1
  obtain ⟨lanes, hSecond, hTwo⟩ := Fifo.exists_enq (q := first)
    (by rw [hOne, hLanes]; exact (by decide : 1 < 16)) w.2
  refine ⟨.tofifos, _, [], trivial, by simp only [fire, tofifos, hDeq, some_bind, hFirst, hSecond]; rfl, rfl, ?_⟩
  simp only [work, pending, hIn, hItems, hTwo, hOne, hLanes, counting]
  omega

theorem receiveReqHeadTail_advances {w : Word × Word} (hPipe : s.dataPipe = w :: rest)
    (hState : s.portal.reqState = .headRequested ∨ s.portal.reqState = .tailRequested) :
    Advances c room trace s := by
  obtain ⟨s', hFire, hRest, hLanes, hIn, hFetches, hWrites, hRank⟩ :
      ∃ s', s.receiveReqHeadTail = some s' ∧ s'.dataPipe = rest ∧ s'.portal.lanes = s.portal.lanes ∧
        s'.portal.inFifo = s.portal.inFifo ∧ s'.fetches = s.fetches ∧ s'.writes = s.writes ∧
        rank room s'.portal.reqState ≤ rank room s.portal.reqState := by
    rcases hState with hState | hState
    · simp [receiveReqHeadTail, hState, hPipe, rank]
    · simp only [receiveReqHeadTail, hState, hPipe, List.head?_cons, List.tail_cons]
      refine ⟨_, rfl, rfl, rfl, rfl, rfl, rfl, ?_⟩
      simp only []
      split_ifs <;> simp [rank]
  refine ⟨.receiveReqHeadTail, s', [], trivial, by rw [fire, hFire]; rfl, rfl, ?_⟩
  simp only [work, pending, hRest, hLanes, hIn, hFetches, hWrites, hPipe, List.length_cons]
  omega

theorem requestMessage_advances (hState : s.portal.reqState = .requestMessage)
    (hShort : (if s.portal.reqHeadReg < s.portal.reqTailReg
      then s.portal.reqLimitReg - s.portal.reqTailReg
      else s.portal.reqHeadReg - s.portal.reqTailReg).toNat ≤ room) : Advances c room trace s := by
  have hFire : ∃ s', s.requestMessage = some s' := by simp [requestMessage, hState]
  obtain ⟨s', hFire⟩ := hFire
  refine ⟨.requestMessage, s', [], trivial, by rw [fire, hFire]; rfl, rfl, ?_⟩
  simp only [requestMessage, firing] at hFire
  obtain ⟨-, rfl⟩ := hFire
  simp only [work, pending, hState, rank, List.length_append, beats, List.length_map, List.length_range]
  omega

theorem receiveMessageHeader_advances {w : Word} {rest : List Word}
    (hLanes : s.portal.lanes.items = w :: rest) (hState : s.portal.reqState = .messageHeaderRequested) :
    Advances c room trace s := by
  obtain ⟨lanes, hDeq, rfl⟩ := Fifo.exists_deq hLanes
  have hFire : ∃ r, s.receiveMessageHeader = some r := by simp [receiveMessageHeader, hState, hDeq]
  obtain ⟨⟨s', events⟩, hFire⟩ := hFire
  refine ⟨.receiveMessageHeader, s', events, trivial, hFire, ?_, ?_⟩
  all_goals
    simp only [receiveMessageHeader, hDeq, firing, Option.bind_some] at hFire
    obtain ⟨-, rfl, rfl⟩ := hFire
  · rfl
  · simp only [work, pending, hLanes, hState, List.length_cons]
    split_ifs <;> simp only [rank] <;> omega

theorem receiveMessage_advances {w : Word} {rest : List Word}
    (hLanes : s.portal.lanes.items = w :: rest) (hState : s.portal.reqState = .messageRequested) :
    Advances c room trace s := by
  obtain ⟨lanes, hDeq, rfl⟩ := Fifo.exists_deq hLanes
  have hFire : ∃ r, s.receiveMessage = some r := by simp [receiveMessage, hState, hDeq]
  obtain ⟨⟨s', events⟩, hFire⟩ := hFire
  refine ⟨.receiveMessage, s', events, trivial, hFire, ?_, ?_⟩
  all_goals
    simp only [receiveMessage, hDeq, firing, Option.bind_some] at hFire
    obtain ⟨-, rfl, rfl⟩ := hFire
  · split <;> rfl
  · simp only [work, pending, hLanes, hState, List.length_cons]
    split_ifs <;> simp only [rank] <;> omega

theorem updateTail_advances (hState : s.portal.reqState = .updateTail) : Advances c room trace s := by
  refine ⟨.updateTail, _, _, trivial, by simp only [fire, updateTail, hState, guard, if_true]; rfl, rfl, ?_⟩
  simp only [work, pending, hState, rank, counting]
  omega

theorem waiting_advances (hState : s.portal.reqState = .waiting)
    (hAcks : 0 < s.writes.length + s.responses) : Advances c room trace s := by
  rcases Nat.eq_zero_or_pos s.responses with hNone | hSome
  · cases hWrites : s.writes with
    | nil =>
      rw [hWrites, hNone] at hAcks
      cases hAcks
    | cons tail rest =>
      refine ⟨.commit, _, [], trivial, by rw [fire, commit, hWrites]; rfl, rfl, ?_⟩
      simp only [work, pending, hWrites, List.length_cons, List.tail_cons]
      omega
  · refine ⟨.waiting, _, [], trivial, by simp only [fire, waiting, hState, guard, hSome]; rfl, rfl, ?_⟩
    simp only [work, pending, hState, rank]
    omega

/-- From an idle state the portal reads the write index. -/
theorem reads_indices (hIdle : s.portal.reqState = .idle) (hPipe : s.dataPipe = [])
    (hFetches : s.fetches = []) (hReadable : s.Readable trace) :
    ∃ s', (machine c).Continues (OneLap c) (s, trace) (s', trace) ∧
      s'.portal.reqHeadReg = (s.cells sharedWrite).value ∧
      (s'.portal.reqState = .requestMessage ∨ s'.portal.reqTailReg = s'.portal.reqHeadReg) := by
  let p := s.portal
  let s₁ : RequestSystem := { s with portal := { p with readyReg := true } }
  let s₂ : RequestSystem := { s₁ with
    fetches := [0, 2], portal := { p with readyReg := true, reqState := .headRequested } }
  let s₃ : RequestSystem := { s₂ with fetches := [2], dataPipe := [(s.cells 0, s.cells 1)] }
  let s₄ : RequestSystem := { s₃ with
    dataPipe := []
    portal := { p with
      readyReg := true
      reqLimitReg := (s.cells 0).value
      reqHeadReg := (s.cells 1).value
      reqState := .tailRequested } }
  let s₅ : RequestSystem := { s₄ with fetches := [], dataPipe := [(s.cells 2, s.cells 3)] }
  let tail := if p.reqTailReg = 0 then (s.cells 2).value else p.reqTailReg
  let s₆ : RequestSystem := { s₅ with
    dataPipe := []
    portal := { s₄.portal with
      reqTailReg := tail
      reqState := if tail ≠ (s.cells 1).value then .requestMessage else .idle } }
  refine ⟨s₆, ?_, rfl, ?_⟩
  · refine .silent (show OneLap c trace s .setSglId from trivial)
      (show fire c.reqsize .setSglId s = some (s₁, []) from rfl) ?_
    refine .silent (show OneLap c trace s₁ .updateReqHeadTail from trivial)
      (show fire c.reqsize .updateReqHeadTail s₁ = some (s₂, []) from ?_) ?_
    · simp [fire, updateReqHeadTail, s₁, s₂, p, hIdle, hFetches]
      rfl
    refine .silent (show OneLap c trace s₂ .fetch from fun _ => hReadable)
      (show fire c.reqsize .fetch s₂ = some (s₃, []) from ?_) ?_
    · simp [fire, fetch, s₁, s₂, s₃, hPipe]
    refine .silent (show OneLap c trace s₃ .receiveReqHeadTail from trivial)
      (show fire c.reqsize .receiveReqHeadTail s₃ = some (s₄, []) from rfl) ?_
    refine .silent (show OneLap c trace s₄ .fetch from fun hHead => by cases hHead)
      (show fire c.reqsize .fetch s₄ = some (s₅, []) from rfl) ?_
    exact .silent (show OneLap c trace s₅ .receiveReqHeadTail from trivial)
      (show fire c.reqsize .receiveReqHeadTail s₅ = some (s₆, []) from rfl) .refl
  · by_cases hMore : tail ≠ (s.cells 1).value
    · exact .inl (if_pos hMore)
    · exact .inr (not_not.mp hMore)

end Fires

end RequestSystem

namespace PortalInv

open RequestSystem

variable {c : SharedParam} {room : Nat} {trace : List PortalEvent} {s : RequestSystem}
  {done todo : List Message}

theorem write_sub_tail (h : PortalInv c trace s done todo) :
    s.mem.index sharedWrite - s.portal.tail = (layout todo).length := by
  rw [h.lap.write, h.tail, layout_append, List.length_append]
  omega

theorem brings (hLanes : s.portal.lanes.items = []) (hContent : s.content ≠ [])
    (hState : s.portal.reqState ≠ .headRequested ∧ s.portal.reqState ≠ .tailRequested)
    (hValid : ∀ i ∈ s.fetches, 4 ≤ i ∧ i + 1 < 4 + (layout done).length) :
    Advances c room trace s := by
  cases hIn : s.portal.inFifo.items with
  | cons w rest => exact tofifos_advances hIn hLanes
  | nil =>
    cases hPipe : s.dataPipe with
    | cons w rest => exact demuxwords_advances hPipe hIn hState
    | nil =>
      cases hFetches : s.fetches with
      | cons i rest =>
        refine fetch_advances hFetches fun hZero => ?_
        have hLow := (hValid i (by rw [hFetches]; exact List.mem_cons_self ..)).1
        rw [hZero] at hLow
        exact absurd hLow (by decide)
      | nil =>
        refine absurd ?_ hContent
        rw [content, behind, hLanes, hIn, hPipe, hFetches]
        rfl

variable (h : PortalInv c trace s done todo)

include h

theorem advances (hRoom : (layout todo).length ≤ room)
    (hReadable : s.Readable trace) (hBusy : s.portal.reqState ≠ .idle) : Advances c room trace s := by
  rcases h.phase with ⟨-, -, -, ⟨hState, hWords⟩ | ⟨hState, -, hWords⟩⟩ | ⟨hBody, hValid⟩
  · rcases hWords with ⟨hFetches, -⟩ | ⟨w, rest, hPipe, -⟩
    · exact fetch_advances hFetches fun _ => hReadable
    · exact receiveReqHeadTail_advances hPipe (.inl hState)
  · rcases hWords with ⟨hFetches, -⟩ | ⟨-, w, hPipe, -⟩
    · exact fetch_advances hFetches fun _ => hReadable
    · exact receiveReqHeadTail_advances hPipe (.inr hState)
  · unfold Body at hBody
    split at hBody
    · next hState => exact absurd hState hBusy
    · next hState =>
      obtain ⟨-, -, hNonzero, -, batch, rest, rfl, hHead, -⟩ := hBody
      have hTail := h.tail
      rw [RequestPortal.tail, if_neg hNonzero] at hTail
      obtain ⟨hStraight, hCount⟩ := count_batch hTail hHead
      refine requestMessage_advances hState ?_
      rw [if_neg hStraight, hCount]
      rw [layout_append, List.length_append] at hRoom
      omega
    · next hState =>
      obtain ⟨-, -, pads, rest, hBatch⟩ := hBody
      cases hLanes : s.portal.lanes.items with
      | cons w rest => exact receiveMessageHeader_advances hLanes hState
      | nil =>
        refine brings hLanes ?_ (by rw [hState]; decide) hValid
        rw [hBatch.content]
        exact hBatch.more
    · next hState =>
      obtain ⟨-, -, -, x, left, pads, rest, hBatch, -⟩ := hBody
      cases hLanes : s.portal.lanes.items with
      | cons w rest => exact receiveMessage_advances hLanes hState
      | nil =>
        refine brings hLanes ?_ (by rw [hState]; decide) hValid
        rw [hBatch.content]
        exact List.cons_ne_nil _ _
    · next hState => exact updateTail_advances hState
    · next hState => exact waiting_advances hState hBody.2.2
    all_goals exact hBody.elim

/-- What is behind the tail never gets more without the sender. -/
theorem todo_le {trace' : List PortalEvent} {s' : RequestSystem} {done' todo' : List Message} (h' : PortalInv c trace' s' done' todo')
    (hSent : sentMessages trace' = sentMessages trace) (hDone : done <+: done') :
    (layout todo').length ≤ (layout todo).length := by
  obtain ⟨more, rfl⟩ := hDone
  rw [h.sent, h'.sent] at hSent
  have hLength := congrArg (fun msgs => (layout msgs).length) hSent
  simp only [layout_append, List.length_append] at hLength
  omega

theorem readable_later {trace' : List PortalEvent} {s' : RequestSystem} {done' todo' : List Message} (h' : PortalInv c trace' s' done' todo')
    (hSent : sentMessages trace' = sentMessages trace) (hDone : done <+: done')
    (hReadable : s.Readable trace) : s'.Readable trace' := by
  have hRoom := h.todo_le h' hSent hDone
  rw [Readable, h.write_sub_tail] at hReadable
  rw [Readable, hSent, h'.write_sub_tail]
  exact ⟨hReadable.1, Nat.lt_of_le_of_lt hRoom hReadable.2⟩

theorem continues {c' : RequestSystem × List PortalEvent}
    (path : (machine c).Continues (OneLap c) (s, trace) c') :
    ∃ done' todo', done <+: done' ∧ PortalInv c c'.2 c'.1 done' todo' := by
  refine path.invariant
    (fun trace s => ∃ done' todo', done <+: done' ∧ PortalInv c trace s done' todo') ?_
    ⟨done, todo, List.prefix_rfl, h⟩
  rintro trace s action s' events ⟨done', todo', hDone, h'⟩ hOk hFire
  obtain ⟨done₁, todo₁, hMore, hNext⟩ := h'.step hOk hFire
  exact ⟨done₁, todo₁, hDone.trans hMore, hNext⟩

theorem exists_idle (hReadable : s.Readable trace) :
    ∃ s' trace', (machine c).Continues (OneLap c) (s, trace) (s', trace') ∧
      sentMessages trace' = sentMessages trace ∧ s'.portal.reqState = .idle ∧
      ∃ done' todo', done <+: done' ∧ PortalInv c trace' s' done' todo' := by
  refine Machine.exists_continues
    (fun n trace' s' => sentMessages trace' = sentMessages trace ∧ s'.work (layout todo).length = n ∧
      ∃ done' todo', done <+: done' ∧ PortalInv c trace' s' done' todo')
    (fun trace' s' => sentMessages trace' = sentMessages trace ∧ s'.portal.reqState = .idle ∧
      ∃ done' todo', done <+: done' ∧ PortalInv c trace' s' done' todo') ?_
    ⟨rfl, rfl, done, todo, List.prefix_rfl, h⟩
  rintro n trace' s' ⟨hSent, rfl, done', todo', hDone, h'⟩
  by_cases hIdle : s'.portal.reqState = .idle
  · exact .inl ⟨hSent, hIdle, done', todo', hDone, h'⟩
  · have hRoom := h.todo_le h' hSent hDone
    have hNow := h.readable_later h' hSent hDone hReadable
    obtain ⟨action, t, events, hOk, hFire, hNone, hLess⟩ := h'.advances hRoom hNow hIdle
    obtain ⟨done₁, todo₁, hMore, hNext⟩ := h'.step hOk hFire
    refine .inr ⟨_, hLess, action, t, events, hOk, hFire, ?_, rfl, done₁, todo₁, hDone.trans hMore, hNext⟩
    rw [sentMessages_append, hNone, List.append_nil, hSent]

theorem idle_enqs (hIdle : s.portal.reqState = .idle) :
    s.content = [] ∧ enqs trace = deliveries done := by
  have hBody := (h.body (by rw [hIdle]; decide)).1
  simp only [Body, hIdle] at hBody
  exact hBody

/-- From an idle state the portal asks for all that is behind the tail. -/
theorem exists_all_asked (hIdle : s.portal.reqState = .idle)
    (hReadable : s.Readable trace) :
    ∃ s' done', (machine c).Continues (OneLap c) (s, trace) (s', trace) ∧ done <+: done' ∧
      PortalInv c trace s' done' [] := by
  obtain ⟨-, -, hPipe, hFetches⟩ := content_eq_nil (h.idle_enqs hIdle).1
  obtain ⟨t, path, hHead, hState⟩ := reads_indices (c := c) hIdle hPipe hFetches hReadable
  obtain ⟨done', todo', hDone, h'⟩ := h.continues path
  have hIndex : t.portal.reqHeadReg.toNat = 4 + (layout (done' ++ todo')).length := by
    rw [hHead, ← h'.sent, h.sent]
    exact h.lap.write
  rcases hState with hState | hState
  · have hFire : ∃ s', t.requestMessage = some s' := by simp [RequestSystem.requestMessage, hState]
    obtain ⟨s', hFire⟩ := hFire
    obtain ⟨batch, rest, rfl, hBatch, hNext⟩ := h'.requestMessage hFire
    have hRest : rest = [] := by
      apply layout_eq_nil
      rw [hIndex] at hBatch
      simp only [layout_append, List.length_append] at hBatch
      omega
    subst hRest
    refine ⟨s', _, path.trans ?_, hDone.trans (List.prefix_append ..), hNext⟩
    exact Machine.Continues.silent (show OneLap c trace t .requestMessage from trivial)
      (show fire c.reqsize .requestMessage t = some (s', []) by rw [fire, hFire]; rfl) .refl
  · have hRest : todo' = [] := by
      apply layout_eq_nil
      have hTail := h'.tail
      rw [RequestPortal.tail, hState] at hTail
      split at hTail
      · next hZero =>
        rw [hZero] at hIndex
        exact absurd hIndex (by simp; omega)
      · rw [hIndex, layout_append, List.length_append] at hTail
        omega
    subst hRest
    exact ⟨t, done', path, hDone, h'⟩

/-- The hardware alone enqueues all that was published. -/
theorem exists_delivered (hReadable : s.Readable trace) :
    ∃ s' trace', (machine c).Continues (OneLap c) (s, trace) (s', trace') ∧
      sentMessages trace' = sentMessages trace ∧ s'.portal.reqState = .idle ∧
      enqs trace' = deliveries (sentMessages trace) := by
  obtain ⟨s₁, trace₁, path₁, hSent₁, hIdle₁, done₁, todo₁, hDone₁, h₁⟩ := h.exists_idle hReadable
  have hReadable₁ := h.readable_later h₁ hSent₁ hDone₁ hReadable
  obtain ⟨s₂, done₂, path₂, hDone₂, h₂⟩ := h₁.exists_all_asked hIdle₁ hReadable₁
  obtain ⟨s₃, trace₃, path₃, hSent₃, hIdle₃, done₃, todo₃, hDone₃, h₃⟩ :=
    h₂.exists_idle (h₁.readable_later h₂ rfl hDone₂ hReadable₁)
  refine ⟨s₃, trace₃, (path₁.trans path₂).trans path₃, hSent₃.trans hSent₁, hIdle₃, ?_⟩
  have hRest : todo₃ = [] := by
    apply layout_eq_nil
    exact Nat.le_zero.mp (h₂.todo_le h₃ hSent₃ hDone₃)
  rw [(h₃.idle_enqs hIdle₃).2, ← hSent₁, ← hSent₃, h₃.sent, hRest, List.append_nil]

end PortalInv

theorem PortalInv.enqs_prefix {c : SharedParam} {trace : List PortalEvent} {s : RequestSystem}
    {done todo : List Message} (h : PortalInv c trace s done todo) : enqs trace <+: deliveries done := by
  rcases h.phase with ⟨hEnqs, -⟩ | ⟨hBody, -⟩
  · exact hEnqs ▸ List.prefix_rfl
  · unfold Body at hBody
    split at hBody
    · exact hBody.2 ▸ List.prefix_rfl
    · exact hBody.2.1 ▸ List.prefix_rfl
    · obtain ⟨-, -, pads, rest, hBatch⟩ := hBody
      rw [← hBatch.enqs, List.append_assoc]
      exact List.prefix_append ..
    · obtain ⟨-, -, -, x, left, pads, rest, hBatch, -⟩ := hBody
      rw [← hBatch.enqs, List.append_assoc]
      exact List.prefix_append ..
    · exact hBody.2.1 ▸ List.prefix_rfl
    · exact hBody.2.1 ▸ List.prefix_rfl
    all_goals exact hBody.elim

/-- What the portal did so far: it enqueued payload words in the order of the messages,
and where it publishes a tail, nothing that it read is left, the messages below the tail
are enqueued and the tail is the head. -/
structure PortalCorrect (s : RequestSystem) (trace : List PortalEvent) : Prop where
  inOrder : enqs trace <+: deliveries (sentMessages trace)
  emptied : s.portal.reqState = .updateTail → s.content = [] ∧
    ∃ done, done <+: sentMessages trace ∧ enqs trace = deliveries done ∧
      s.portal.reqTailReg.toNat = sharedStart + (layout done).length
  published : ∀ tail head, .published tail head ∈ trace → tail = head

/-- In the first lap, with readable batches, the portal enqueues the payload words of the
messages, and the hardware alone can enqueue all of them. -/
theorem request_portal_delivers (c : SharedParam) {s : RequestSystem} {trace : List PortalEvent}
    (hRun : (RequestSystem.machine c).Run (RequestSystem.OneLap c) s trace) :
    PortalCorrect s trace ∧ (s.Readable trace →
      ∃ s' trace', (RequestSystem.machine c).Continues (RequestSystem.OneLap c) (s, trace) (s', trace') ∧
        sentMessages trace' = sentMessages trace ∧ s'.portal.reqState = .idle ∧
        enqs trace' = deliveries (sentMessages trace)) := by
  obtain ⟨⟨done, todo, h⟩, hSound⟩ := run_portalInv hRun
  refine ⟨⟨?_, fun hState => ?_, fun tail head hMem => hSound _ hMem⟩, h.exists_delivered⟩
  · rw [h.sent, deliveries_append]
    exact h.enqs_prefix.trans (List.prefix_append ..)
  · have hBody := (h.body (by rw [hState]; decide)).1
    simp only [Body, hState] at hBody
    obtain ⟨hNone, hEnqs, -, hNonzero⟩ := hBody
    have hTail := h.tail
    rw [RequestPortal.tail, if_neg hNonzero] at hTail
    exact ⟨hNone, done, h.sent ▸ List.prefix_append .., hEnqs, hTail⟩

/-- A message of an even number of words, with its header. -/
def oneWord : Message := ⟨1, [7], one_ne_pad⟩

theorem request_portal_delivers_two_messages : ∃ s trace,
    (RequestSystem.machine ringOfTwenty).Run (RequestSystem.OneLap ringOfTwenty) s trace ∧
      enqs trace = [(1, 7), (1, 7), (1, 8)] ∧ .published 10 10 ∈ trace ∧ PortalCorrect s trace ∧
      ∃ s' trace', (RequestSystem.machine ringOfTwenty).Continues (RequestSystem.OneLap ringOfTwenty)
        (s, trace) (s', trace') ∧ sentMessages trace' = sentMessages trace ∧
        s'.portal.reqState = .idle ∧ enqs trace' = deliveries (sentMessages trace) := by
  obtain ⟨s, trace, hRun, hResult⟩ := Machine.exists_run
    (show ((RequestSystem.machine ringOfTwenty).exec (RequestSystem.OneLap ringOfTwenty)
      (.setSglId :: .call oneWord :: List.replicate 7 .sender ++ RequestSystem.sendTwo twoWords ++
        RequestSystem.readIndices ++ RequestSystem.bring 3 ++ [.receiveMessageHeader, .receiveMessage] ++
        RequestSystem.parseTwo ++ RequestSystem.finish)
      (RequestSystem.fresh ringOfTwenty, [])).map
        (fun d => (enqs d.2, decide (.published 10 10 ∈ d.2), decide (d.1.Readable d.2))) =
          some ([(1, 7), (1, 7), (1, 8)], true, true) by decide +kernel) ⟨rfl, rfl, rfl, rfl, rfl, rfl, rfl, rfl, rfl, rfl, rfl⟩
  simp only [Prod.mk.injEq, decide_eq_true_eq] at hResult
  have h := request_portal_delivers ringOfTwenty hRun
  exact ⟨s, trace, hRun, hResult.1, hResult.2.1, h.1, h.2 hResult.2.2⟩

/-- A single message of two words in the first lap: the portal goes to publish the tail
as soon as it has seen the header. The payload stays in its lanes. -/
theorem payload_is_left_behind : ∃ s trace,
    (RequestSystem.machine ringOfTwenty).Run (RequestSystem.Scheduled ringOfTwenty) s trace ∧
      s.lap = 0 ∧ sentMessages trace = [oneWord] ∧ .published 6 6 ∈ trace ∧ enqs trace = [] ∧
      s.portal.lanes.items = [⟨7, some (0, .payload)⟩] := by
  obtain ⟨s, trace, run, hResult⟩ := Machine.exists_run
    (show ((RequestSystem.machine ringOfTwenty).exec (RequestSystem.Scheduled ringOfTwenty)
      (.setSglId :: .call oneWord :: List.replicate 7 .sender ++ RequestSystem.readIndices ++
        RequestSystem.bring 1 ++ [.receiveMessageHeader] ++ RequestSystem.finish)
      (RequestSystem.fresh ringOfTwenty, [])).map
        (fun d => decide (d.1.lap = 0 ∧ sentMessages d.2 = [oneWord] ∧ .published 6 6 ∈ d.2 ∧
          enqs d.2 = [] ∧ d.1.portal.lanes.items = [⟨7, some (0, .payload)⟩])) =
          some true by decide +kernel) ⟨rfl, rfl, rfl, rfl, rfl, rfl, rfl, rfl, rfl, rfl, rfl⟩
  exact ⟨s, trace, run, of_decide_eq_true hResult⟩

end Connectal.Shared
