import Connectal.Shared.PortalPhase

/-! Every rule of the portal and of its engines keeps what is known in its state. -/
namespace Connectal.Shared

open Rules

variable {c : SharedParam} {trace : List PortalEvent} {s s' : RequestSystem}
  {done todo : List Message} {E : List (BitVec 16 × BitVec 32)}

theorem Indices.append (h : Indices E done todo s) (more : List Message) :
    Indices E done (todo ++ more) s := by
  obtain ⟨hEnqs, hLanes, hIn, ⟨hState, hWords⟩ | ⟨hState, hHead, hWords⟩⟩ := h
  · refine ⟨hEnqs, hLanes, hIn, .inl ⟨hState, hWords.imp_right ?_⟩⟩
    rintro ⟨w, rest, hPipe, hHead, hRest⟩
    exact ⟨w, rest, hPipe, hHead.append more, hRest⟩
  · exact ⟨hEnqs, hLanes, hIn, .inr ⟨hState, hHead.append more, hWords⟩⟩

theorem Body.append {p : RequestPortal} {words : List Word} {acks : Nat}
    (h : Body c E done todo p words acks) (more : List Message) :
    Body c E done (todo ++ more) p words acks := by
  unfold Body at h ⊢
  split at h
  case h_2 => exact ⟨h.1, h.2.1, h.2.2.1, h.2.2.2.1, h.2.2.2.2.append more⟩
  all_goals exact h

theorem RequestSystem.content_eq_nil (h : s.content = []) :
    s.portal.lanes.items = [] ∧ s.portal.inFifo.items = [] ∧ s.dataPipe = [] ∧ s.fetches = [] := by
  simp only [RequestSystem.content, RequestSystem.behind, List.append_eq_nil_iff, List.flatMap_eq_nil_iff] at h
  obtain ⟨hLanes, ⟨hIn, hPipe⟩, hFetches⟩ := h
  refine ⟨hLanes, List.eq_nil_iff_forall_not_mem.mpr fun w hw => ?_,
    List.eq_nil_iff_forall_not_mem.mpr fun w hw => ?_, List.eq_nil_iff_forall_not_mem.mpr fun w hw => ?_⟩
  · exact by cases hIn w hw
  · exact by cases hPipe w hw
  · exact by cases hFetches w hw

theorem TailWords.fetch {reqTailReg : BitVec 32} {fetches : List Nat}
    {dataPipe : List (Word × Word)} (h : TailWords reqTailReg fetches dataPipe) {i : Nat}
    {cells : Nat → Word} (hi : fetches.head? = some i) (hStart : reqTailReg = 0 → (cells 2).value = 4) :
    TailWords reqTailReg fetches.tail (dataPipe ++ [(cells i, cells (i + 1))]) := by
  rcases h with ⟨rfl, rfl⟩ | ⟨rfl, -⟩
  · cases hi
    exact .inr ⟨rfl, _, rfl, hStart⟩
  · cases hi

namespace PortalInv

/-- The memory below the write index and the hardware are as before, and messages may
have been published. -/
theorem frame (h : PortalInv c trace s done todo) (events : List PortalEvent) (pc : SenderPc)
    (cells : Nat → Word) (hEnqs : enqs events = [])
    (hLap : FirstLap c (done ++ (todo ++ sentMessages events)) { s with sender := pc, cells })
    (hBelow : ∀ i, i ≠ sharedWrite → i < 4 + (layout (done ++ todo)).length → cells i = s.cells i) :
    PortalInv c (trace ++ events) { s with sender := pc, cells } done
      (todo ++ sentMessages events) := by
  have hTrace : enqs (trace ++ events) = enqs trace := by
    rw [enqs_append, hEnqs, List.append_nil]
  have hRead : Memory.index (fun i => (cells i).value) sharedRead = s.mem.index sharedRead := by
    rw [Memory.index, hBelow sharedRead (by decide) (by rw [sharedRead]; omega)]
    rfl
  refine ⟨?_, hLap, h.laps, h.tail, fun hTail => ?_, ?_⟩
  · rw [sentMessages_append, h.sent, List.append_assoc]
  · obtain ⟨hIndex, hWrites⟩ := h.fresh hTail
    exact ⟨hRead.trans hIndex, hWrites⟩
  · rw [hTrace]
    rcases h.phase with hPhase | ⟨hBody, hFetches⟩
    · exact .inl (hPhase.append _)
    · have hContent : RequestSystem.content { s with sender := pc, cells } = s.content := by
        simp only [RequestSystem.content, RequestSystem.behind]
        congr 2
        refine List.flatMap_congr fun i hi => ?_
        have hi := hFetches i hi
        rw [layout_append, List.length_append] at hBelow
        rw [hBelow i (by rw [sharedWrite]; omega) (by omega),
          hBelow (i + 1) (by rw [sharedWrite]; omega) (by omega)]
      rw [hContent]
      exact .inr ⟨hBody.append _, hFetches⟩

theorem call {m : Message} (h : PortalInv c trace s done todo) (hFits : c.Fits m)
    (hCall : s.call m = some s') : PortalInv c trace s' done todo := by
  obtain ⟨hLap, pc, rfl⟩ := h.lap.call hFits hCall
  exact ⟨h.sent, hLap, h.laps, h.tail, h.fresh, h.phase⟩

theorem sentMessages_sent (msgs : List Message) :
    sentMessages (msgs.map .sent) = msgs ∧ enqs (msgs.map .sent) = [] := by
  induction msgs with
  | nil => exact ⟨rfl, rfl⟩
  | cons m msgs ih => exact ⟨congrArg (m :: ·) ih.1, ih.2⟩

variable (h : PortalInv c trace s done todo)

include h

theorem send (hLap : s.nextLap c.reqsize = s.lap)
    (hStep : s.sendStep c.reqsize = some s') :
    PortalInv c (trace ++ s.sender.publishes.map .sent) s' done (todo ++ s.sender.publishes) := by
  obtain ⟨hNext, ⟨pc, cells, rfl⟩, hBelow⟩ := h.lap.sends hLap hStep
  obtain ⟨hSent, hEnqs⟩ := sentMessages_sent s.sender.publishes
  have hFrame := h.frame (s.sender.publishes.map .sent) pc cells hEnqs
  rw [hSent, ← List.append_assoc] at hFrame
  exact hFrame hNext hBelow

theorem setSglId (hFire : s.setSglId = some s') :
    PortalInv c trace s' done todo := by
  cases hFire
  exact ⟨h.sent, h.lap.of_eq (fun _ _ => rfl) rfl rfl, h.laps, h.tail,
    h.fresh, h.phase⟩

/-- A step of the hardware that neither writes the memory nor moves the tail. -/
theorem hardware {trace' : List PortalEvent}
    (hSent : sentMessages trace' = sentMessages trace) (hCells : s'.cells = s.cells)
    (hLap : s'.lap = s.lap) (hSender : s'.sender = s.sender) (hWrites : s'.writes = s.writes)
    (hTail : s'.portal.reqTailReg = s.portal.reqTailReg)
    (hLaps : s'.portal.lap = s.portal.lap ∧ s'.portal.batchLap = s.portal.batchLap)
    (hPhase : Indices (enqs trace') done todo s' ∨
      Body c (enqs trace') done todo s'.portal s'.content (s'.writes.length + s'.responses) ∧
        ∀ i ∈ s'.fetches, 4 ≤ i ∧ i + 1 < 4 + (layout done).length) :
    PortalInv c trace' s' done todo := by
  refine ⟨hSent.trans h.sent, h.lap.of_eq (fun i _ => congrFun hCells i) hLap hSender, ?_, ?_, ?_, hPhase⟩
  · rw [hLaps.1, hLaps.2]
    exact h.laps
  · rw [RequestPortal.tail, hTail]
    exact h.tail
  · unfold RequestSystem.mem
    rw [hTail, hCells, hWrites]
    exact h.fresh

/-- Outside of the reads of the index words. -/
theorem body (hState : s.portal.reqState ≠ .headRequested ∧ s.portal.reqState ≠ .tailRequested) :
    Body c (enqs trace) done todo s.portal s.content (s.writes.length + s.responses) ∧
      ∀ i ∈ s.fetches, 4 ≤ i ∧ i + 1 < 4 + (layout done).length := by
  rcases h.phase with ⟨-, -, -, ⟨hHead, -⟩ | ⟨hTail, -⟩⟩ | hBody
  · exact absurd hHead hState.1
  · exact absurd hTail hState.2
  · exact hBody

/-- The write index, once it is fetched. -/
theorem head_of_readable (hReadable : s.Readable trace) :
    Head done todo (s.cells sharedWrite).value := by
  obtain ⟨hLast, hShort⟩ := hReadable
  refine ⟨todo, [], (List.append_nil todo).symm, h.lap.write, ?_, fun m hm => hLast m ?_⟩
  · rw [h.lap.write, h.tail, layout_append, List.length_append] at hShort
    omega
  · rw [Option.mem_def] at hm ⊢
    rw [h.sent, List.getLast?_append, hm]
    rfl

theorem fetch (hReadable : s.fetches.head? = some sharedLimit → s.Readable trace)
    (hFire : s.fetch = some s') : PortalInv c trace s' done todo := by
  simp only [RequestSystem.fetch, firing] at hFire
  obtain ⟨i, hi, rfl⟩ := hFire
  obtain ⟨rest, hFetches⟩ := List.head?_eq_some_iff.mp hi
  refine h.hardware rfl rfl rfl rfl rfl rfl ⟨rfl, rfl⟩ ?_
  have hStart : s.portal.reqTailReg = 0 → (s.cells 2).value = 4 := by
    intro hTail
    exact BitVec.eq_of_toNat_eq (h.fresh hTail).1
  rcases h.phase with ⟨hEnqs, hLanes, hIn, hWords⟩ | ⟨hBody, hValid⟩
  · refine .inl ⟨hEnqs, hLanes, hIn, hWords.imp ?_ ?_⟩
    · rintro ⟨hState, ⟨hAll, hPipe⟩ | ⟨w, rest, hPipe, hHead, hRest⟩⟩
      · refine ⟨hState, .inr ⟨_, [], by rw [hPipe]; rfl, ?_, .inl ⟨by rw [hAll]; rfl, rfl⟩⟩⟩
        rw [hAll] at hi
        cases hi
        exact h.head_of_readable (hReadable (by rw [hAll]; rfl))
      · exact ⟨hState, .inr ⟨w, _, by rw [hPipe]; rfl, hHead, hRest.fetch hi hStart⟩⟩
    · rintro ⟨hState, hHead, hRest⟩
      exact ⟨hState, hHead, hRest.fetch hi hStart⟩
  · have hContent : RequestSystem.content { s with
        fetches := s.fetches.tail
        dataPipe := s.dataPipe ++ [(s.cells i, s.cells (i + 1))] } = s.content := by
      simp only [RequestSystem.content, RequestSystem.behind, hFetches, List.tail_cons, List.flatMap_append,
        List.flatMap_cons, List.flatMap_nil, List.append_nil, List.append_assoc]
    rw [hContent]
    exact .inr ⟨hBody, fun j hj => hValid j (List.mem_of_mem_tail hj)⟩

theorem demuxwords (hState : s.portal.reqState ≠ .headRequested ∧ s.portal.reqState ≠ .tailRequested)
    (hFire : s.demuxwords = some s') : PortalInv c trace s' done todo := by
  simp only [RequestSystem.demuxwords, firing] at hFire
  obtain ⟨w0, w1, hw, inFifo, ⟨-, hIn⟩, rfl⟩ := hFire
  obtain ⟨rest, hPipe⟩ := List.head?_eq_some_iff.mp hw
  refine h.hardware rfl rfl rfl rfl rfl rfl ⟨rfl, rfl⟩ ?_
  have hContent : RequestSystem.content { s with
      dataPipe := s.dataPipe.tail, portal := { s.portal with inFifo } } = s.content := by
    simp only [RequestSystem.content, RequestSystem.behind, hPipe, hIn, List.tail_cons, List.flatMap_append,
      List.flatMap_cons, List.flatMap_nil, List.append_nil, List.append_assoc]
  rw [hContent]
  exact .inr (h.body hState)

theorem tofifos (hFire : s.tofifos = some s') :
    PortalInv c trace s' done todo := by
  simp only [RequestSystem.tofifos, firing] at hFire
  obtain ⟨w, w', inFifo, hIn, first, ⟨-, hFirst⟩, lanes, ⟨-, hLanes⟩, rfl⟩ := hFire
  refine h.hardware rfl rfl rfl rfl rfl rfl ⟨rfl, rfl⟩ ?_
  rcases h.phase with ⟨-, -, hNone, -⟩ | ⟨hBody, hValid⟩
  · rw [hNone] at hIn
    cases hIn
  · have hContent : RequestSystem.content { s with portal := { s.portal with inFifo, lanes } } =
        s.content := by
      simp only [RequestSystem.content, RequestSystem.behind, hIn, hFirst, hLanes, List.flatMap_cons, List.append_assoc]
      rfl
    rw [hContent]
    exact .inr ⟨hBody, hValid⟩

end PortalInv

end Connectal.Shared
