import Connectal.Shared.PortalRules

/-! Runs of the request portal in the first lap of the ring. -/
namespace Connectal.Shared

open Rules

variable {c : SharedParam} {trace events : List PortalEvent} {s s' : RequestSystem}
  {done todo : List Message}

/-- The word was written by the sender as a header, a pad or a terminator in this lap. -/
def Word.Heads (w : Word) (lap : Nat) : Prop :=
  w.origin = some (lap, .header) ∨ w.origin = some (lap, .pad) ∨ w.origin = some (lap, .terminator)

instance (w : Word) (lap : Nat) : Decidable (w.Heads lap) :=
  inferInstanceAs (Decidable (_ ∨ _ ∨ _))

/-- What is seen of the portal: the words that it takes for headers, and the tails that
it publishes. -/
def PortalEvent.Sound : PortalEvent → Prop
  | .parsed hdr lap => hdr.Heads lap
  | .published tail head => tail = head
  | _ => True

theorem PortalInv.init (h : RequestSystem.Init c s) : PortalInv c [] s [] [] := by
  obtain ⟨hFetches, hPipe, hWrites, hResponses⟩ := h.engines
  refine ⟨rfl, ⟨h.lap, h.limit, h.write, c.room, laid_nil, ?_, ?_⟩, ?_, ?_, fun _ => ⟨h.read, hWrites⟩,
    .inr ⟨?_, ?_⟩⟩
  · rw [h.sender]
    exact fun m hm => by cases hm
  · rw [h.sender]
    trivial
  · rw [h.portal]
    exact ⟨rfl, rfl⟩
  · rw [h.portal]
    rfl
  · rw [RequestSystem.content, RequestSystem.behind, hFetches, hPipe, h.portal]
    exact ⟨rfl, rfl⟩
  · rw [hFetches]
    exact fun i hi => by cases hi

theorem eq_some_of_map (o : Option RequestSystem) (h : o.map (·, []) = some (s', events)) :
    o = some s' ∧ events = [] := by
  obtain ⟨t, hSome, hEq⟩ := Option.map_eq_some_iff.mp h
  cases hEq
  exact ⟨hSome, rfl⟩

/-- A rule without events that keeps the messages as they are. -/
theorem silent_step (o : Option RequestSystem) (hFire : o.map (·, []) = some (s', events))
    (hKeep : ∀ {s'}, o = some s' → PortalInv c trace s' done todo) :
    ∃ done' todo', done <+: done' ∧ PortalInv c (trace ++ events) s' done' todo' := by
  obtain ⟨hSome, rfl⟩ := eq_some_of_map o hFire
  rw [List.append_nil]
  exact ⟨done, todo, List.prefix_rfl, hKeep hSome⟩

/-- One action in the first lap. -/
theorem PortalInv.step {action : RequestSystem.Action} (h : PortalInv c trace s done todo)
    (hOk : RequestSystem.OneLap c trace s action)
    (hFire : RequestSystem.fire c.reqsize action s = some (s', events)) :
    ∃ done' todo', done <+: done' ∧ PortalInv c (trace ++ events) s' done' todo' := by
  cases action with
  | call m => exact silent_step (s.call m) hFire (h.call hOk)
  | setSglId => exact silent_step s.setSglId hFire h.setSglId
  | updateReqHeadTail => exact silent_step s.updateReqHeadTail hFire h.updateReqHeadTail
  | receiveReqHeadTail => exact silent_step s.receiveReqHeadTail hFire h.receiveReqHeadTail
  | demuxwords => exact silent_step s.demuxwords hFire (h.demuxwords hOk)
  | tofifos => exact silent_step s.tofifos hFire h.tofifos
  | waiting => exact silent_step s.waiting hFire h.waiting
  | fetch => exact silent_step s.fetch hFire (h.fetch hOk)
  | commit => exact silent_step s.commit hFire h.commit
  | sender =>
    obtain ⟨t, hStep, hEq⟩ :=
      Option.map_eq_some_iff.mp (show (s.sendStep c.reqsize).map _ = some (s', events) from hFire)
    cases hEq
    exact ⟨done, _, List.prefix_rfl, h.send hOk hStep⟩
  | requestMessage =>
    obtain ⟨hSome, rfl⟩ := eq_some_of_map s.requestMessage hFire
    rw [List.append_nil]
    obtain ⟨batch, rest, -, -, hNext⟩ := h.requestMessage hSome
    exact ⟨_, rest, List.prefix_append .., hNext⟩
  | drain =>
    obtain ⟨hFire, -⟩ := eq_some_of_map s.drain hFire
    simp only [RequestSystem.drain, firing] at hFire
    exact absurd hFire.1 h.not_drain
  | receiveMessageHeader => exact ⟨done, todo, List.prefix_rfl, h.receiveMessageHeader hFire⟩
  | receiveMessage => exact ⟨done, todo, List.prefix_rfl, h.receiveMessage hFire⟩
  | updateTail => exact ⟨done, todo, List.prefix_rfl, h.updateTail hFire⟩

/-- The events of one action in the first lap. -/
theorem PortalInv.sound {action : RequestSystem.Action} (h : PortalInv c trace s done todo)
    (hFire : RequestSystem.fire c.reqsize action s = some (s', events)) :
    ∀ e ∈ events, e.Sound := by
  cases action with
  | sender =>
    obtain ⟨t, -, hEq⟩ :=
      Option.map_eq_some_iff.mp (show (s.sendStep c.reqsize).map _ = some (s', events) from hFire)
    cases hEq
    intro e he
    obtain ⟨m, -, rfl⟩ := List.mem_map.mp he
    trivial
  | receiveMessageHeader =>
    simp only [RequestSystem.fire, RequestSystem.receiveMessageHeader, firing] at hFire
    obtain ⟨hState, hdr, lanes, hLanes, -, rfl⟩ := hFire
    have hBody := (h.body (by rw [hState]; decide)).1
    simp only [Body, hState, RequestSystem.content_deq hLanes] at hBody
    obtain ⟨-, -, pads, rest, hBatch⟩ := hBody
    intro e he
    rw [List.mem_singleton.mp he]
    show hdr.Heads s.portal.batchLap
    rw [h.laps.2]
    rcases hBatch.header with ⟨rfl, -⟩ | ⟨m, rest', -, rfl, -⟩
    · exact .inr (.inl rfl)
    · exact .inl rfl
  | receiveMessage =>
    simp only [RequestSystem.fire, RequestSystem.receiveMessage, firing] at hFire
    obtain ⟨-, data, lanes, -, -, rfl⟩ := hFire
    intro e he
    split at he
    · rw [List.mem_singleton.mp he]
      trivial
    · cases he
  | updateTail =>
    simp only [RequestSystem.fire, RequestSystem.updateTail, firing] at hFire
    obtain ⟨hState, -, rfl⟩ := hFire
    have hBody := (h.body (by rw [hState]; decide)).1
    simp only [Body, hState] at hBody
    intro e he
    rw [List.mem_singleton.mp he]
    exact hBody.2.2.1.symm
  | setSglId =>
    obtain ⟨-, rfl⟩ := eq_some_of_map s.setSglId hFire
    exact fun e he => by cases he
  | _ =>
    obtain ⟨-, rfl⟩ := eq_some_of_map _ hFire
    exact fun e he => by cases he

/-- What holds along every run in the first lap. -/
theorem run_portalInv (hRun : (RequestSystem.machine c).Run (RequestSystem.OneLap c) s trace) :
    (∃ done todo, PortalInv c trace s done todo) ∧ ∀ e ∈ trace, e.Sound := by
  refine hRun.invariant
    (fun trace s => (∃ done todo, PortalInv c trace s done todo) ∧ ∀ e ∈ trace, e.Sound) ?_ ?_
  · exact fun s hs => ⟨⟨[], [], .init hs⟩, fun e he => by cases he⟩
  · rintro trace s action s' events ⟨⟨done, todo, h⟩, hSound⟩ hOk hFire
    obtain ⟨done', todo', -, hNext⟩ := h.step hOk hFire
    refine ⟨⟨done', todo', hNext⟩, fun e he => ?_⟩
    rcases List.mem_append.mp he with he | he
    · exact hSound e he
    · exact h.sound hFire e he

/-- In the first lap, the portal only takes words for headers that the sender wrote as
headers, pads or terminators. -/
theorem parsed_words_are_headers (c : SharedParam) {s : RequestSystem} {trace : List PortalEvent}
    (hRun : (RequestSystem.machine c).Run (RequestSystem.OneLap c) s trace) :
    ∀ hdr lap, .parsed hdr lap ∈ trace → hdr.Heads lap :=
  fun _ _ hParsed => (run_portalInv hRun).2 _ hParsed

namespace RequestSystem

/-- The portal reads the index words. -/
def readIndices : List Action :=
  [.updateReqHeadTail, .fetch, .fetch, .receiveReqHeadTail, .receiveReqHeadTail, .requestMessage]

/-- The words of `n` beats come to the lanes. -/
def bring (n : Nat) : List Action := (List.replicate n [.fetch, .demuxwords, .tofifos]).flatten

def finish : List Action := [.updateTail, .commit, .waiting]

/-- A message of two words is sent. -/
def sendTwo (m : Message) : List Action := .call m :: List.replicate 9 .sender

def parseTwo : List Action :=
  [.receiveMessageHeader, .receiveMessage, .receiveMessage, .receiveMessageHeader]

end RequestSystem

theorem parsed_words_are_headers_two_words : ∃ s trace,
    (RequestSystem.machine ringOfTwenty).Run (RequestSystem.OneLap ringOfTwenty) s trace ∧
      .parsed ⟨twoWords.hdr, some (0, .header)⟩ 0 ∈ trace ∧
      ∀ hdr lap, .parsed hdr lap ∈ trace → hdr.Heads lap := by
  obtain ⟨s, trace, hRun, hResult⟩ := Machine.exists_run
    (show ((RequestSystem.machine ringOfTwenty).exec (RequestSystem.OneLap ringOfTwenty)
      (.setSglId :: RequestSystem.sendTwo twoWords ++ RequestSystem.readIndices ++
        RequestSystem.bring 2 ++ RequestSystem.parseTwo ++ RequestSystem.finish)
      (RequestSystem.fresh ringOfTwenty, [])).map
        (fun d => decide (.parsed ⟨twoWords.hdr, some (0, .header)⟩ 0 ∈ d.2)) = some true by decide +kernel) ⟨rfl, rfl, rfl, rfl, rfl, rfl, rfl, rfl, rfl, rfl, rfl⟩
  exact ⟨s, trace, hRun, of_decide_eq_true hResult, parsed_words_are_headers ringOfTwenty hRun⟩

/-- A message whose last word looks like a header of method 1. -/
def likeHeader : Message := ⟨2, [7, 0x00010003], by decide⟩

def noPayload : Message := ⟨1, [], one_ne_pad⟩

namespace RequestSystem

/-- Messages of 4, 2, 4 and 4 cells in the first lap, where the last one wraps, and
messages of 4, 4 and 4 cells in the second lap, where the last one wraps again. -/
def twoLaps : List Action :=
  .setSglId :: sendTwo twoWords ++ (.call noPayload :: List.replicate 7 .sender) ++ sendTwo twoWords ++
  readIndices ++ bring 5 ++ parseTwo ++ [.receiveMessageHeader, .receiveMessageHeader] ++ parseTwo ++
  finish ++
  sendTwo likeHeader ++ readIndices ++ bring 3 ++ parseTwo ++ [.receiveMessageHeader, .drain] ++ finish ++
  sendTwo twoWords ++ sendTwo twoWords ++ readIndices ++ bring 4 ++ parseTwo ++ parseTwo ++ finish ++
  sendTwo twoWords ++ readIndices ++ bring 4 ++ parseTwo ++ [.receiveMessageHeader, .receiveMessage]

end RequestSystem

/-- When the ring wraps, the terminator is written at its start and not behind the last
message, and the portal reads on up to the limit. In the second lap it takes a word of a
payload of the first lap for a header, and enqueues a pad for method 1. -/
theorem stale_word_is_parsed : ∃ s trace,
    (RequestSystem.machine ringOfTwenty).Run (RequestSystem.Scheduled ringOfTwenty) s trace ∧
      .parsed ⟨0x00010003, some (0, .payload)⟩ 1 ∈ trace ∧
      ¬ Word.Heads ⟨0x00010003, some (0, .payload)⟩ 1 ∧ .enq 1 padHdr ∈ trace := by
  obtain ⟨s, trace, run, hResult⟩ := Machine.exists_run
    (show ((RequestSystem.machine ringOfTwenty).exec (RequestSystem.Scheduled ringOfTwenty)
      RequestSystem.twoLaps (RequestSystem.fresh ringOfTwenty, [])).map
        (fun d => decide (.parsed ⟨0x00010003, some (0, .payload)⟩ 1 ∈ d.2 ∧ .enq 1 padHdr ∈ d.2)) =
          some true by decide +kernel) ⟨rfl, rfl, rfl, rfl, rfl, rfl, rfl, rfl, rfl, rfl, rfl⟩
  obtain ⟨hParsed, hEnq⟩ := of_decide_eq_true hResult
  exact ⟨s, trace, run, hParsed, by decide, hEnq⟩

end Connectal.Shared
