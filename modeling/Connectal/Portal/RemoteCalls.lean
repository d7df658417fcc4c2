import Connectal.Marshall.Agreement
import Connectal.Portal.RequestRun
import Connectal.Shared.PortalProgress
import Connectal.Shared.RingProgress
import Connectal.Socket.FrameRun

/-! Calls from end to end: what the generated proxies make of their arguments reaches the
hardware as the packed structures, and software on the other side as the arguments. -/
namespace Connectal

open Layout Rules

variable {ceilLog : Nat → Nat}

/-- A call that compiler and hardware lay out alike. -/
structure Sendable (ceilLog : Nat → Nat) (params : Params) (args : Args) : Prop where
  transmissible : params.Transmissible ceilLog
  alone : FloatsAlone (argWords ceilLog params)
  widths : ∀ m ∈ argAtoms params, m.bitWidth ceilLog = m.width
  fits : ∀ m ∈ argAtoms params, args m.name < 2 ^ m.width
  sign : ∀ m ∈ argAtoms params, m.datatype = .int 32 → (args m.name).testBit 31 = false

theorem Sendable.agrees {params : Params} {args : Args} (h : Sendable ceilLog params args)
    (fd : BitVec 32) : MessageAgrees ceilLog params args fd :=
  h.transmissible.messageAgrees h.alone h.widths h.fits h.sign fd

/-- A method with one parameter of 40 bits. -/
def fortyBits : Params := .cons "x" (.atom (.bit 40)) .nil

theorem fortyBits_sendable : Sendable id fortyBits fun _ => 0x1200000034 :=
  ⟨⟨by simp [fortyBits, Params.DistinctNames, BsvType.DistinctNames, Params.names],
    by simp [argAtoms, fortyBits, Params.collectMembers, BsvType.collectMembers, Atom.Carried], by decide⟩,
    floatsAlone_of_ne (by decide), by decide, by decide, by decide⟩

theorem fortyBits_proxy : proxyWords id fortyBits (fun _ => 0x1200000034) = some [0x12, 0x34] := by
  rw [(fortyBits_sendable.agrees 0).proxy]
  decide +kernel

namespace Portal.RequestPortal

/-- In every run the structures that the hardware gets from a channel are those of the calls
that were sent, in their order. -/
theorem calls_become_structs {n : Nat} (params : Fin n → Params)
    (hSize : ∀ i, 0 < (params i).width) {s : RequestPortal fun i => (params i).width}
    {trace : List (Event _)} (run : (machine _).Run (fitting _) s trace) (j : Fin n) (calls : List Args)
    (hCalls : ∀ args ∈ calls, Sendable ceilLog (params j) args)
    (hSent : (trace.filterMap (sent? j)).map some = calls.map (proxyWords ceilLog (params j))) :
    delivered j trace ++ (s.methods j).fifo.items = calls.map ((params j).pack · []) := by
  have hWords : trace.filterMap (sent? j) = calls.map (messageWords 32 <| (params j).pack · []) := by
    apply List.map_injective_iff.mpr (Option.some_injective _)
    rw [hSent, List.map_map]
    exact List.map_congr_left fun args h => ((hCalls args h).agrees 0).proxy
  rw [delivered_eq hSize run j, hWords, List.map_map]
  exact List.map_congr_left fun args _ => FromBit.rebuild_messageWords (by decide) _

theorem calls_become_structs_forty_bits : ∃ s trace,
    (machine fun _ : Fin 1 => fortyBits.width).Run (fitting _) s trace ∧
      delivered 0 trace ++ (s.methods 0).fifo.items = [0x1200000034#40] := by
  obtain ⟨s, trace, run, hSent⟩ := Machine.exists_run
    (show ((machine fun _ : Fin 1 => fortyBits.width).exec (fitting _)
      [.call 0 [0x12, 0x34], .readReq 0, .readBeat 0, .readData, .writeReq 0, .writeBeat 0, .writeData,
        .writeReq 0, .writeBeat 0, .writeData] (⟨fun _ => .powerUp, fun _ => .powerUp, .idle⟩, [])).map
      (fun d => d.2.filterMap (sent? 0)) = some [[0x12, 0x34]] by decide +kernel) rfl
  refine ⟨s, trace, run, (calls_become_structs (fun _ => fortyBits) (by decide) run 0 [fun _ => 0x1200000034]
    (List.forall_mem_singleton.mpr fortyBits_sendable) ?_).trans (by rfl)⟩
  rw [hSent, List.map_singleton, List.map_singleton, fortyBits_proxy]

end Portal.RequestPortal

/-- A call of one of the methods that `κ` numbers. -/
structure Call {κ : Type} (ceilLog : Nat → Nat) (methods : κ → Params) where
  method : κ
  args : Args
  sendable : Sendable ceilLog (methods method) args

namespace Call

variable {κ : Type} {methods : κ → Params}

/-- What a proxy sends: the number of its method, and the words for the arguments. -/
def message (call : Call ceilLog methods) : Option (κ × List (BitVec 32)) :=
  (proxyWords ceilLog (methods call.method) call.args).map (call.method, ·)

/-- What comes in makes the handler call the method back with the arguments. -/
def Arrives (call : Call ceilLog methods) (got : κ × List (BitVec 32)) : Prop :=
  got.1 = call.method ∧ ∀ fd, ∃ vars, handleMessage ceilLog (methods got.1) fd got.2 = some vars ∧
    ∀ m ∈ (methods got.1).collectMembers [], vars m.name = argument ceilLog call.args m

theorem arrives (call : Call ceilLog methods) {got : κ × List (BitVec 32)}
    (h : call.message = some got) : call.Arrives got := by
  rw [message, (call.sendable.agrees 0).proxy, Option.map_some] at h
  cases h
  exact ⟨rfl, fun fd => (call.sendable.agrees fd).handler⟩

theorem arrive_all {calls : List (Call ceilLog methods)} {sent : List (κ × List (BitVec 32))}
    (hSent : sent.map some = calls.map message) : List.Forall₂ Arrives calls sent := by
  have hAll : List.Forall₂ (· = ·) (calls.map message) (sent.map some) :=
    List.forall₂_eq_eq_eq ▸ hSent.symm
  rw [List.forall₂_map_left_iff, List.forall₂_map_right_iff] at hAll
  exact hAll.imp fun call _ => call.arrives

/-- A transport that hands messages over in their order delivers the first calls. -/
theorem arrive_of_isPrefix {calls : List (Call ceilLog methods)} {sent got : List (κ × List (BitVec 32))}
    (hSent : sent.map some = calls.map message) (hGot : got <+: sent) :
    List.Forall₂ Arrives (calls.take got.length) got := by
  have hTake := List.forall₂_take got.length (arrive_all hSent)
  rwa [← List.prefix_iff_eq_take.mp hGot] at hTake

def fortyBits (method : κ) : Call id fun _ : κ => Connectal.fortyBits :=
  ⟨method, fun _ => 0x1200000034, fortyBits_sendable⟩

theorem message_fortyBits (method : κ) : (fortyBits method).message = some (method, [0x12, 0x34]) :=
  congrArg (Option.map (method, ·)) fortyBits_proxy

end Call

namespace Shared

variable {c : SharedParam} {s : Software} {trace : List RingEvent}

/-- Over the ring in shared memory the first calls have arrived, in their order and with
their arguments. If the ring has room for two messages, all of them can arrive. -/
theorem ring_calls_arrive {methods : BitVec 16 → Params}
    (run : (Software.machine c).Run (Software.Fitting c) s trace) (calls : List (Call ceilLog methods))
    (hSent : ((sents trace ++ s.sender.pending).map Message.content).map some = calls.map Call.message) :
    List.Forall₂ Call.Arrives (calls.take (handled trace).length) (handled trace) ∧
    (4 + 2 * reqwords c.reqsize < c.limit → ∃ s' trace',
      (Software.machine c).Continues (Software.Fitting c) (s, trace) (s', trace') ∧
      sents trace' = sents trace ++ s.sender.pending ∧ List.Forall₂ Call.Arrives calls (handled trace')) := by
  have hInv := run_ringInv run
  constructor
  · apply Call.arrive_of_isPrefix hSent
    rw [hInv.handed, List.map_append]
    exact ((List.take_prefix ..).map _).trans (List.prefix_append ..)
  · intro hLarge
    obtain ⟨s', trace', path, hSents, -, hHandled⟩ := exists_all_handled hLarge hInv
    refine ⟨s', trace', path, hSents, Call.arrive_all ?_⟩
    rw [hHandled, hSents, hSent]

theorem ring_calls_arrive_forty_bits : ∃ s trace,
    (Software.machine ringOfTwenty).Run (Software.Fitting ringOfTwenty) s trace ∧ handled trace = [] ∧
      ∃ s' trace', (Software.machine ringOfTwenty).Continues (Software.Fitting ringOfTwenty)
        (s, trace) (s', trace') ∧ List.Forall₂ Call.Arrives [.fortyBits 1] (handled trace') := by
  obtain ⟨s, trace, run, hResult⟩ := Machine.exists_run
    (show ((Software.machine ringOfTwenty).exec (Software.Fitting ringOfTwenty)
      [.call ⟨1, [0x12, 0x34], one_ne_pad⟩, .sender] (Software.fresh ringOfTwenty, [])).map
        (fun d => (handled d.2, (sents d.2 ++ d.1.sender.pending).map Message.content)) =
          some ([], [(1, [0x12, 0x34])]) by decide +kernel) ⟨rfl, rfl, rfl, rfl, rfl, rfl⟩
  simp only [Prod.mk.injEq] at hResult
  obtain ⟨s', trace', path, -, hAll⟩ := (ring_calls_arrive run [.fortyBits 1]
    (by rw [hResult.2, List.map_singleton, List.map_singleton, Call.message_fortyBits])).2 (by decide)
  exact ⟨s, trace, run, hResult.1, s', trace', path, hAll⟩

/-- The words of one method. -/
def wordsFor (j : BitVec 16) (enqs : List (BitVec 16 × BitVec 32)) : List (BitVec 32) :=
  enqs.filterMap fun e => if e.1 = j then some e.2 else none

/-- The structures of the calls of one method. -/
def structsFor {methods : BitVec 16 → Params} (j : BitVec 16) (calls : List (Call ceilLog methods)) :
    List (BitVec (methods j).width) :=
  (calls.filter (·.method = j)).map fun call => (methods j).pack call.args []

theorem wordsFor_deliveries {methods : BitVec 16 → Params} {calls : List (Call ceilLog methods)}
    {msgs : List Message} (hSent : (msgs.map Message.content).map some = calls.map Call.message)
    (j : BitVec 16) : wordsFor j (deliveries msgs) = (structsFor j calls).flatMap (messageWords 32) := by
  induction calls generalizing msgs with
  | nil =>
    rw [List.map_nil, List.map_eq_nil_iff, List.map_eq_nil_iff] at hSent
    rw [hSent]
    rfl
  | cons call calls ih =>
    obtain ⟨m, msgs, rfl⟩ := List.exists_cons_of_ne_nil (fun hNil : msgs = [] => by simp [hNil] at hSent)
    obtain ⟨hHead, hTail⟩ := List.cons.inj hSent
    obtain ⟨hNum, hWords⟩ := Prod.mk.inj (Option.some.inj (hHead.trans
      (congrArg _ (call.sendable.agrees 0).proxy)))
    have hSplit : wordsFor j (deliveries (m :: msgs)) =
        (if m.num = j then m.payload else []) ++ wordsFor j (deliveries msgs) := by
      rw [wordsFor, deliveries, List.flatMap_cons, List.filterMap_append, List.filterMap_map]
      congr 1
      split_ifs with hNum <;> simp [hNum]
    rw [hSplit, ih hTail, hNum, hWords]
    by_cases hMethod : call.method = j
    · subst hMethod
      simp [structsFor]
    · simp [structsFor, hMethod]

/-- Over the ring to the hardware the words of every method come in their order, and in the
first lap with readable batches all of them can come. `mkFromBit` makes the structures of
the calls from them. -/
theorem ring_calls_become_structs {methods : BitVec 16 → Params} {s : RequestSystem}
    {trace : List PortalEvent} (run : (RequestSystem.machine c).Run (RequestSystem.OneLap c) s trace)
    (calls : List (Call ceilLog methods))
    (hSent : ((sentMessages trace).map Message.content).map some = calls.map Call.message)
    (j : BitVec 16) (hSize : 0 < (methods j).width) :
    wordsFor j (enqs trace) <+: (structsFor j calls).flatMap (messageWords 32) ∧
    (s.Readable trace → ∃ s' trace',
      (RequestSystem.machine c).Continues (RequestSystem.OneLap c) (s, trace) (s', trace') ∧
      sentMessages trace' = sentMessages trace ∧
      ∀ m fedTrace, (FromBit.machine 32 _).Run (fun _ _ _ => True) m fedTrace →
        FromBit.fed fedTrace = wordsFor j (enqs trace') →
        FromBit.got fedTrace ++ m.fifo.items = structsFor j calls) := by
  obtain ⟨done, todo, h⟩ := (run_portalInv run).1
  have hWords := wordsFor_deliveries hSent j
  constructor
  · rw [← hWords, h.sent, deliveries_append]
    exact (h.enqs_prefix.trans (List.prefix_append ..)).filterMap _
  · intro hReadable
    obtain ⟨s', trace', path, hSents, -, hEnqs⟩ := h.exists_delivered hReadable
    refine ⟨s', trace', path, hSents, fun m fedTrace feed hFed => ?_⟩
    rw [hEnqs, hWords, ← List.append_nil (List.flatMap ..)] at hFed
    have hNone : ([] : List (BitVec 32)).length < nwords 32 (methods j).width :=
      nwords_pos (by decide) hSize
    exact (FromBit.messages_rebuilt (by decide) hSize feed hNone hFed).1

theorem ring_calls_become_structs_forty_bits : ∃ s trace,
    (RequestSystem.machine ringOfTwenty).Run (RequestSystem.OneLap ringOfTwenty) s trace ∧
      ∃ s' trace', (RequestSystem.machine ringOfTwenty).Continues (RequestSystem.OneLap ringOfTwenty)
        (s, trace) (s', trace') ∧ ∀ m fedTrace, (FromBit.machine 32 40).Run (fun _ _ _ => True) m fedTrace →
          FromBit.fed fedTrace = wordsFor 1 (enqs trace') →
          FromBit.got fedTrace ++ m.fifo.items = [0x1200000034] := by
  obtain ⟨s, trace, run, hResult⟩ := Machine.exists_run
    (show ((RequestSystem.machine ringOfTwenty).exec (RequestSystem.OneLap ringOfTwenty)
      (.setSglId :: RequestSystem.sendTwo ⟨1, [0x12, 0x34], one_ne_pad⟩)
      (RequestSystem.fresh ringOfTwenty, [])).map
        (fun d => ((sentMessages d.2).map Message.content, decide (d.1.Readable d.2))) =
          some ([(1, [0x12, 0x34])], true) by decide +kernel) ⟨rfl, rfl, rfl, rfl, rfl, rfl, rfl, rfl, rfl, rfl, rfl⟩
  simp only [Prod.mk.injEq, decide_eq_true_eq] at hResult
  obtain ⟨s', trace', path, -, hStructs⟩ := (ring_calls_become_structs run [.fortyBits 1]
    (by rw [hResult.1, List.map_singleton, List.map_singleton, Call.message_fortyBits]) 1 (by decide)).2 hResult.2
  exact ⟨s, trace, run, s', trace', path, hStructs⟩

end Shared

namespace Socket

variable {s : Receiver} {trace : List Event}

/-- The port and the method of a dispatched message, and its words. -/
def keyed (d : Option (BitVec 16) × BitVec 16 × List (BitVec 32)) :
    (Option (BitVec 16) × BitVec 16) × List (BitVec 32) := ((d.1, d.2.1), d.2.2)

/-- Over a socket the first calls have arrived, in their order and with their arguments,
and all of them can arrive. Messages for other ports and methods may come in between. -/
theorem socket_calls_arrive {methods : Option (BitVec 16) × BitVec 16 → Params} (t : Transport)
    (run : (Receiver.machine t).Run (Synchronised t) s trace) (calls : List (Call ceilLog methods))
    (hSent : (((sents trace).filterMap t.delivery).map keyed).map some = calls.map Call.message) :
    List.Forall₂ Call.Arrives (calls.take (dispatches trace).length) ((dispatches trace).map keyed) ∧
    ∃ s' trace', (Receiver.machine t).Continues (Synchronised t) (s, trace) (s', trace') ∧
      sents trace' = sents trace ∧ List.Forall₂ Call.Arrives calls ((dispatches trace').map keyed) := by
  obtain ⟨done, todo, junk, h⟩ := run_frameInv run
  constructor
  · rw [← List.length_map keyed]
    apply Call.arrive_of_isPrefix hSent
    rw [h.dispatched, h.sent, List.filterMap_append, List.map_append]
    exact List.prefix_append ..
  · obtain ⟨s', trace', path, hSents, hEmpty, done', todo', junk', h'⟩ := h.exists_drained
    have hTodo : todo' = [] := by
      have hNone := bytes_eq_nil (h'.stream.symm.trans hEmpty)
      rw [List.append_eq_nil_iff, List.flatMap_eq_nil_iff] at hNone
      refine List.eq_nil_iff_forall_not_mem.mpr fun m hm => ?_
      have hLess := t.length_leftover_lt m
      rw [hNone.2 m hm] at hLess
      cases hLess
    refine ⟨s', trace', path, hSents, Call.arrive_all ?_⟩
    rw [h'.dispatched, ← hSent, ← hSents, h'.sent, hTodo, List.append_nil]

/-- Method 0 with two words. -/
def twoWordMethod : Interface := ⟨0, fun method => if method = 0 then some 2 else none⟩

/-- The call comes behind a message to an unknown port. -/
theorem socket_calls_arrive_forty_bits :
    let t : Transport := .mux [⟨5, twoWordMethod⟩] (by decide)
    ∃ s trace, (Receiver.machine t).Run (Synchronised t) s trace ∧
      ∃ s' trace', (Receiver.machine t).Continues (Synchronised t) (s, trace) (s', trace') ∧
        List.Forall₂ Call.Arrives [.fortyBits (some 5, 0)] ((dispatches trace').map keyed) := by
  intro t
  obtain ⟨s, trace, run, hResult⟩ := Machine.exists_run
    (show ((Receiver.machine t).exec (Synchronised t)
      [.send ⟨9, 0, [7], by decide⟩, .event [], .send ⟨5, 0, [0x12, 0x34], by decide⟩] (Receiver.fresh, [])).map
        (fun d => (sents d.2).filterMap t.delivery) = some [(some 5, 0, [0x12, 0x34])] by decide +kernel)
    ⟨rfl, rfl, rfl⟩
  obtain ⟨s', trace', path, -, hAll⟩ := (socket_calls_arrive t run [.fortyBits (some 5, 0)]
    (by rw [hResult, List.map_singleton, List.map_singleton, List.map_singleton, Call.message_fortyBits, keyed])).2
  exact ⟨s, trace, run, s', trace', path, hAll⟩

end Socket

end Connectal
