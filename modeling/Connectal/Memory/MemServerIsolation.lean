import Connectal.Memory.IsolationProgress

/-! What clients and software may rely on. Requests that cannot be translated stay
in the queues for good, and what is sent behind them goes wrong; so does a question
of the software that meets client requests at a unit. Apart from that, every
request gets the address of its own scatter list and offset. -/
namespace Connectal

set_option synthInstance.maxSize 256

open Rules Pairing

namespace MemServer

variable {nMasters numClients numMMUs numTags tsz addrWidth : Nat} {dir : Direction}
  {trace : List (Event nMasters numClients numMMUs tsz addrWidth)}
  {s : MemServer nMasters numClients numMMUs numTags tsz addrWidth}

/-- The requests of one server, each with its translation. -/
def requestsOf (i : Fin nMasters) (items : List (Pending nMasters numClients addrWidth)) :
    List (LRec numClients × MMU.Outcome addrWidth) :=
  items.filterMap fun
    | .request k l outcome => if k = i then some (l, outcome) else none
    | .trans _ _ _ => none

/-- The translations of the software's questions. -/
def questions (items : List (Pending nMasters numClients addrWidth)) : List (MMU.Outcome addrWidth) :=
  items.filterMap fun
    | .request _ _ _ => none
    | .trans _ _ outcome => some outcome

/-- The requests that a server has accepted, in order, each with the translation
that the tables gave it then. -/
def loaded (trace : List (Event nMasters numClients numMMUs tsz addrWidth)) (i : Fin nMasters) :
    List (LRec numClients × MMU.Outcome addrWidth) := requestsOf i (sents trace)

/-- The translations that the software has asked for, in order. -/
def asked (trace : List (Event nMasters numClients numMMUs tsz addrWidth)) :
    List (MMU.Outcome addrWidth) := questions (sents trace)

/-- The words that the software gets with the `addrResponse` indications. -/
def indications (trace : List (Event nMasters numClients numMMUs tsz addrWidth)) : List (BitVec 64) :=
  (addrResponses trace).map fun physAddr => physAddr.setWidth 64

/-- The requests among those loaded that have an address. -/
def granted (requests : List (LRec numClients × MMU.Outcome addrWidth)) :
    List (LRec numClients × BitVec addrWidth) :=
  requests.filterMap fun
    | (l, .ok addr) => some (l, addr)
    | (_, .error _) => none

/-- A renamed request with the address it was given. -/
def addressed (r : RRec numClients addrWidth) : LRec numClients × BitVec addrWidth :=
  (⟨r.req, r.client⟩, r.pa)

theorem having_request (i : Fin nMasters) (items : List (Pending nMasters numClients addrWidth)) :
    (having Pending.source (some i) items).map (fun x => (x.label, x.outcome)) =
      (requestsOf i items).map fun r => (some r.1, r.2) := by
  induction items with
  | nil => rfl
  | cons x items ih =>
    cases x with
    | request k l outcome =>
      by_cases hk : k = i
      · subst hk
        simpa [requestsOf, having, Pending.source, Pending.label, Pending.outcome] using ih
      · simpa [requestsOf, having, Pending.source, hk] using ih
    | trans pointer offset outcome => simpa [requestsOf, having, Pending.source] using ih

theorem having_trans (items : List (Pending nMasters numClients addrWidth)) :
    (having Pending.source none items).map (fun x => (x.label, x.outcome)) =
      (questions items).map fun outcome => (none, outcome) := by
  induction items with
  | nil => rfl
  | cons x items ih =>
    cases x with
    | request k l outcome => simpa [questions, having, Pending.source] using ih
    | trans pointer offset outcome =>
      simpa [questions, having, Pending.source, Pending.label, Pending.outcome] using ih

theorem granted_map_ok (rs : List (LRec numClients × BitVec addrWidth)) :
    granted (rs.map fun r => (r.1, .ok r.2)) = rs := by
  induction rs with
  | nil => rfl
  | cons r rs ih => exact congrArg (r :: ·) ih

theorem granted_append (first second : List (LRec numClients × MMU.Outcome addrWidth)) :
    granted (first ++ second) = granted first ++ granted second := by
  simp [granted]

variable {items : List (Pending nMasters numClients addrWidth)}

theorem granted_requestsOf_eq_nil
    (h : ∀ x ∈ items, x.answer = none) (i : Fin nMasters) : granted (requestsOf i items) = [] := by
  rw [granted, requestsOf, List.filterMap_filterMap, List.filterMap_eq_nil_iff]
  intro x hx
  have hNone := h x hx
  cases x with
  | request k l outcome =>
    cases outcome with
    | ok addr => cases hNone
    | error e => by_cases hk : k = i <;> simp [hk]
  | trans pointer offset outcome => rfl

theorem oks_map_ok (addrs : List (BitVec addrWidth)) : MMU.oks (addrs.map .ok) = addrs := by
  induction addrs with
  | nil => rfl
  | cons addr addrs ih => exact congrArg (addr :: ·) ih

theorem oks_questions_eq_nil (h : ∀ x ∈ items, x.answer = none) : MMU.oks (questions items) = [] := by
  rw [MMU.oks, questions, List.filterMap_filterMap, List.filterMap_eq_nil_iff]
  intro x hx
  have hNone := h x hx
  cases x with
  | request k l outcome => rfl
  | trans pointer offset outcome =>
    cases outcome with
    | ok addr => cases hNone
    | error e => rfl

variable {P : Fin numMMUs → MMU.Pipe addrWidth}

/-- What a server has loaded is what it has renamed, each with its own translation,
and what is pending. -/
theorem Inv.loaded_eq (h : Inv dir trace s P) (i : Fin nMasters) :
    loaded trace i = ((renamed trace i).map addressed).map (fun r => (r.1, .ok r.2)) ++
      requestsOf i (pending trace) := by
  have hLog := h.log (some i)
  rw [having_request, having_request, settled, List.map_map] at hLog
  have hInj : Function.Injective
      (fun r : LRec numClients × MMU.Outcome addrWidth => (some r.1, r.2)) := by
    rintro ⟨l, o⟩ ⟨l', o'⟩ hSame
    simpa using hSame
  apply hInj.list_map
  rw [List.map_append, List.map_map, List.map_map]
  exact hLog

/-- What the software has asked for is what it was told and what is pending. -/
theorem Inv.asked_eq (h : Inv dir trace s P) :
    asked trace = (addrResponses trace).map .ok ++ questions (pending trace) := by
  have hLog := h.log none
  rw [having_trans, having_trans, settled, List.map_map] at hLog
  have hInj : Function.Injective
      (fun o : MMU.Outcome addrWidth => ((none : Option (LRec numClients)), o)) := by
    intro o o' hSame
    simpa using hSame
  apply hInj.list_map
  rw [List.map_append, List.map_map]
  exact hLog

/-- A request that can be translated is loaded only when no request that cannot be
translated waits in the queue of its server or at its unit. The software asks for no
translations. -/
def ErrorsApart (dir : Direction) :
    Machine.Contract (MemServer nMasters numClients numMMUs numTags tsz addrWidth)
      (Action nMasters numClients numMMUs tsz) (Event nMasters numClients numMMUs tsz addrWidth)
  | trace, s, .loadClient i _ req => req.sglidOutofrange = false → ∀ j ∈ mmuOf numMMUs req.sglId,
      ((s.mmus j).tables.translate addrWidth req.reqTup).isOk = true →
        Unobstructed (pending trace) (some i) j
  | _, _, .addrTrans _ _ => False
  | trace, s, a => Orderly dir trace s a

variable {a : Action nMasters numClients numMMUs tsz}

theorem Draining.errorsApart (h : Draining dir trace s a) : ErrorsApart dir trace s a := by
  cases a with
  | loadClient | addrTrans => exact h.elim
  | _ => exact h

variable {events : List (Event nMasters numClients numMMUs tsz addrWidth)}

theorem mem_pendingAfter {x : Pending nMasters numClients addrWidth}
    (hx : x ∈ events.foldl pendingAfter items) : x ∈ items ∨ x ∈ sents events := by
  induction events generalizing items with
  | nil => exact .inl hx
  | cons e events ih =>
    have hRest := ih hx
    cases e with
    | sent y =>
      rcases hRest with hItems | hSents
      · rcases List.mem_append.mp hItems with hOld | hNew
        · exact .inl hOld
        · rw [List.mem_singleton] at hNew
          subst hNew
          exact .inr (by simp [sents])
      · exact .inr (List.mem_cons_of_mem y hSents)
    | server i e =>
      refine hRest.imp_left fun hItems => ?_
      cases e with
      | renamed r => exact dropOldest_sublist.subset hItems
      | _ => exact hItems
    | mmu j e => exact hRest
    | addrResponse physAddr => exact hRest.imp_left fun hItems => dropOldest_sublist.subset hItems

theorem sents_map_server (i : Fin nMasters) (es : List (RequestPath.Event numClients tsz addrWidth)) :
    sents (es.map (.server i) : List (Event nMasters numClients numMMUs tsz addrWidth)) = [] := by
  rw [sents, List.filterMap_map, List.filterMap_eq_nil_iff]
  intro e _
  rfl

/-- Without questions of the software, all that is sent comes from servers. -/
theorem ErrorsApart.sents {s' : MemServer nMasters numClients numMMUs numTags tsz addrWidth}
    (hOk : ErrorsApart dir trace s a)
    (hs : fire dir a s = some (s', events)) : ∀ x ∈ sents events, x.source.isSome := by
  cases a with
  | loadClient i client req =>
    rcases loadClient_cases hs with ⟨e, q, rfl, rfl⟩ | ⟨j, q, a, mmu, -, -, -, -, -, rfl, rfl⟩
    · simp [MemServer.sents]
    · simp [MemServer.sents, Pending.source]
  | checkMmuResp i =>
    obtain ⟨l, rest, j, a, addr, mmu, tag, tagGen, q, -, -, -, -, -, -, rfl, rfl⟩ :=
      checkMmuResp_cases hs
    simp [MemServer.sents]
  | service i a =>
    simp only [fire, firing] at hs
    obtain ⟨path, served, hServe, rfl, rfl⟩ := hs
    simp [sents_map_server i served]
  | incArb j =>
    simp only [fire, firing] at hs
    obtain ⟨rfl, rfl⟩ := hs
    simp [MemServer.sents]
  | mmu j a =>
    simp only [fire] at hs
    split at hs
    · cases hs
    · simp only [firing] at hs
      obtain ⟨mmu, es, -, rfl, rfl⟩ := hs
      simp [(silent_map_mmu j es).2.1]
  | addrTrans pointer offset => exact hOk.elim
  | mmuEntry =>
    obtain ⟨first, q, j, addr, mmu, -, -, -, rfl, rfl⟩ := mmuEntry_cases hs
    simp [MemServer.sents]

/-- Without questions of the software, the two kinds of origin are apart anyway. -/
theorem run_separated (run : (machine _ _ _ _ _ _ dir).Run (ErrorsApart dir) s trace) :
    (machine _ _ _ _ _ _ dir).Run (Separated dir) s trace := by
  refine run.adapt (fun trace _ => ∀ x ∈ pending trace, x.source.isSome) ?_ ?_ ?_
  · intro s _ x hx
    cases hx
  · intro trace s action s' events hInv hOk hs x hx
    rw [pending_append] at hx
    rcases mem_pendingAfter hx with hOld | hNew
    · exact hInv x hOld
    · exact hOk.sents hs x hNew
  · intro trace s action hInv hOk
    cases action with
    | loadClient i client req =>
      intro hRange j hj
      refine ⟨fun x hx _ => ?_, hOk hRange j hj⟩
      rw [hInv x hx]
      rfl
    | addrTrans pointer offset => exact hOk.elim
    | _ => exact hOk

/-- Nothing new is sent until all requests that can be translated have been renamed, each with
its own address. -/
theorem exists_granted (hSize : 1 ≤ tsz) (hTags : 2 ^ tsz ≤ numTags)
    (run : (machine _ _ _ _ _ _ dir).Run (Separated dir) s trace) :
    ∃ s' more, (machine _ _ _ _ _ _ dir).Continues (Draining dir) (s, trace) (s', trace ++ more) ∧
      asked (trace ++ more) = asked trace ∧ addrResponses (trace ++ more) = MMU.oks (asked trace) ∧
      ∀ i, loaded (trace ++ more) i = loaded trace i ∧
        (renamed (trace ++ more) i).map addressed = granted (loaded trace i) := by
  obtain ⟨s', trace', path, hSents, hNone⟩ := exists_all_settled hSize hTags run
  obtain ⟨more, rfl⟩ := path.extends
  obtain ⟨Q, hQ⟩ := run_inv (run.continue (path.weaken fun _ _ _ ha => ha.separated))
  have hAsked : asked (trace ++ more) = asked trace := congrArg questions hSents
  refine ⟨s', more, path, hAsked, ?_, fun i => ?_⟩
  · rw [← hAsked, hQ.asked_eq, MMU.oks_append, oks_questions_eq_nil hNone, List.append_nil, oks_map_ok]
  · have hLoaded : loaded (trace ++ more) i = loaded trace i := congrArg (requestsOf i) hSents
    refine ⟨hLoaded, ?_⟩
    rw [← hLoaded, hQ.loaded_eq i, granted_append, granted_map_ok,
      granted_requestsOf_eq_nil hNone, List.append_nil]

/-- In every run in which nothing that can be translated is loaded behind something
that cannot: the requests renamed by a server are the first of those it loaded, in
order, each with its own translation, and only these reach the bus. All requests
that can be translated can be renamed, each with its own address. -/
theorem errors_isolated (hSize : 1 ≤ tsz) (hTags : 2 ^ tsz ≤ numTags)
    (run : (machine nMasters numClients numMMUs numTags tsz addrWidth dir).Run (ErrorsApart dir) s trace) :
    (∀ i, ((renamed trace i).map addressed).map (fun r => (r.1, .ok r.2)) <+: loaded trace i) ∧
    (∀ i, taken trace i <+: renamed trace i) ∧
    ∃ s' more, (machine nMasters numClients numMMUs numTags tsz addrWidth dir).Continues (ErrorsApart dir)
      (s, trace) (s', trace ++ more) ∧
      ∀ i, loaded (trace ++ more) i = loaded trace i ∧
        (renamed (trace ++ more) i).map addressed = granted (loaded trace i) := by
  have separated := run_separated run
  obtain ⟨P, h⟩ := run_inv separated
  refine ⟨fun i => ?_, fun i => ?_, ?_⟩
  · rw [h.loaded_eq i]
    exact List.prefix_append _ _
  · rw [h.bus i]
    exact List.prefix_append _ _
  · obtain ⟨s', more, path, -, -, hGranted⟩ := exists_granted hSize hTags separated
    exact ⟨s', more, path.weaken fun _ _ _ ha => ha.errorsApart, hGranted⟩

/-- In every run in which moreover questions of the software and requests of clients
do not meet at a unit: the software is told the translations it asked for, in order;
the requests of clients are renamed with their own translations; and everything that
can be translated can be given its address. -/
theorem addrTrans_isolated (hSize : 1 ≤ tsz) (hTags : 2 ^ tsz ≤ numTags)
    (run : (machine nMasters numClients numMMUs numTags tsz addrWidth dir).Run (Separated dir) s trace) :
    (indications trace).map .ok <+: (asked trace).map (Except.map fun physAddr => physAddr.setWidth 64) ∧
    (∀ i, ((renamed trace i).map addressed).map (fun r => (r.1, .ok r.2)) <+: loaded trace i) ∧
    ∃ s' more, (machine nMasters numClients numMMUs numTags tsz addrWidth dir).Continues (Separated dir)
      (s, trace) (s', trace ++ more) ∧
      asked (trace ++ more) = asked trace ∧
      indications (trace ++ more) = (MMU.oks (asked trace)).map (fun physAddr => physAddr.setWidth 64) ∧
      ∀ i, loaded (trace ++ more) i = loaded trace i ∧
        (renamed (trace ++ more) i).map addressed = granted (loaded trace i) := by
  obtain ⟨P, h⟩ := run_inv run
  refine ⟨?_, fun i => ?_, ?_⟩
  · rw [h.asked_eq, List.map_append, indications, List.map_map, List.map_map]
    exact List.prefix_append _ _
  · rw [h.loaded_eq i]
    exact List.prefix_append _ _
  · obtain ⟨s', more, path, hAsked, hTold, hGranted⟩ := exists_granted hSize hTags run
    exact ⟨s', more, path.weaken fun _ _ _ ha => ha.separated, hAsked, congrArg (List.map _) hTold, hGranted⟩

section Decidability

variable (trace : List (Event nMasters numClients numMMUs tsz addrWidth))
  (s : MemServer nMasters numClients numMMUs numTags tsz addrWidth)

instance (items : List (Pending nMasters numClients addrWidth)) (src : Option (Fin nMasters))
    (j : Fin numMMUs) : Decidable (Unobstructed items src j) :=
  inferInstanceAs (Decidable (∀ x ∈ items, x.answer = none → x.source ≠ src ∧ x.mmu numMMUs ≠ some j))

instance (items : List (Pending nMasters numClients addrWidth)) (src : Option (Fin nMasters))
    (j : Fin numMMUs) : Decidable (Unmixed items src j) :=
  inferInstanceAs (Decidable (∀ x ∈ items, x.mmu numMMUs = some j → x.source.isSome = src.isSome))

instance (dir : Direction) (a : Action nMasters numClients numMMUs tsz) :
    Decidable (Orderly dir trace s a) :=
  match a with
  | .service i (.returnTag tag) => inferInstanceAs (Decidable
      (TagGen.ReturnsOutstanding (tagEvents trace i) (s.servers i).tagGen (.returnTag tag)))
  | .mmu j a => inferInstanceAs (Decidable (MMU.Calm dir.port (s.mmus j) a))
  | .service _ .takeReq | .service _ .complete | .service _ .dmaError | .service _ (.tagRule _)
  | .loadClient _ _ _ | .checkMmuResp _ | .incArb _ | .addrTrans _ _ | .mmuEntry => .isTrue trivial

instance (dir : Direction) (a : Action nMasters numClients numMMUs tsz) :
    Decidable (ErrorsApart dir trace s a) :=
  match a with
  | .loadClient i _ req => inferInstanceAs (Decidable (req.sglidOutofrange = false →
      ∀ j ∈ mmuOf numMMUs req.sglId, ((s.mmus j).tables.translate addrWidth req.reqTup).isOk = true →
        Unobstructed (pending trace) (some i) j))
  | .addrTrans _ _ => .isFalse id
  | .service i a => inferInstanceAs (Decidable (Orderly dir trace s (.service i a)))
  | .mmu j a => inferInstanceAs (Decidable (Orderly dir trace s (.mmu j a)))
  | .checkMmuResp _ | .incArb _ | .mmuEntry => .isTrue trivial

instance (dir : Direction) (a : Action nMasters numClients numMMUs tsz) :
    Decidable (Separated dir trace s a) :=
  match a with
  | .loadClient i _ req => inferInstanceAs (Decidable (req.sglidOutofrange = false →
      ∀ j ∈ mmuOf numMMUs req.sglId, Unmixed (pending trace) (some i) j ∧
        (((s.mmus j).tables.translate addrWidth req.reqTup).isOk = true →
          Unobstructed (pending trace) (some i) j)))
  | .addrTrans pointer offset => inferInstanceAs (Decidable (∀ j ∈ mmuOf numMMUs pointer,
      Unmixed (pending trace) none j ∧ (((s.mmus j).tables.translate addrWidth
        ⟨pointer.setWidth 5, offset.setWidth 44⟩).isOk = true → Unobstructed (pending trace) none j)))
  | .service i a => inferInstanceAs (Decidable (Orderly dir trace s (.service i a)))
  | .mmu j a => inferInstanceAs (Decidable (Orderly dir trace s (.mmu j a)))
  | .checkMmuResp _ | .incArb _ | .mmuEntry => .isTrue trivial

end Decidability

/-- One server with one client and two tags, and one translation unit in which
scatter list 1 has one page of 4 KB and the others are not configured. -/
def small : MemServer 1 1 1 2 1 40 :=
  powerUp (fun _ _ => false) fun _ => MMU.powerUp (fun _ => false)
    (fun id => if id = 1 then some ⟨⟨0, 0⟩, ⟨0, 0⟩, ⟨1, 0⟩⟩ else none) (fun _ => 9)

theorem small_init (dir : Direction) : (machine 1 1 1 2 1 40 dir).init small :=
  ⟨_, _, rfl, fun _ => ⟨_, _, _, rfl⟩⟩

/-- The tag generator is initialised, a request for scatter list 1 passes the unit
and is renamed, and behind it a request for scatter list 0 is reported. -/
def errorLast : List (Action 1 1 1 1) :=
  [.service 0 (.tagRule .init), .service 0 (.tagRule .init), .loadClient 0 0 ⟨1, 5, 64, 7⟩,
    .mmu 0 (.rule (.stage1 0)), .mmu 0 (.rule (.stage2 0)), .mmu 0 (.rule (.stage3 0)),
    .mmu 0 (.rule (.stage4 0)), .mmu 0 (.rule (.stage5 0)), .loadClient 0 0 ⟨0, 6, 64, 8⟩,
    .checkMmuResp 0, .service 0 .takeReq, .mmu 0 (.rule (.stage1 0)), .mmu 0 (.rule (.stage2 0)),
    .mmu 0 (.rule .dmaError)]

/-- The first request gets its address although one behind it cannot be translated. -/
theorem errors_isolated_error_last :
    ∃ s trace, (machine 1 1 1 2 1 40 .read).Run (ErrorsApart .read) s trace ∧
      loaded trace 0 = [(⟨⟨1, 5, 64, 7⟩, 0⟩, .ok 0x9005),
        (⟨⟨0, 6, 64, 8⟩, 0⟩, .error ⟨.sglIdInvalid, 0, 6⟩)] ∧
      taken trace 0 = [⟨⟨1, 5, 64, 7⟩, 0x9005, 0, 0⟩] ∧ taken trace 0 <+: renamed trace 0 := by
  obtain ⟨s, trace, run, hTrace⟩ := Machine.exists_run
    (show ((machine 1 1 1 2 1 40 .read).exec (ErrorsApart .read) errorLast (small, [])).map
        (fun d => (loaded d.2 0, taken d.2 0)) =
      some ([(⟨⟨1, 5, 64, 7⟩, 0⟩, .ok 0x9005), (⟨⟨0, 6, 64, 8⟩, 0⟩, .error ⟨.sglIdInvalid, 0, 6⟩)],
        [⟨⟨1, 5, 64, 7⟩, 0x9005, 0, 0⟩]) by decide +kernel) (small_init _)
  have run : (machine 1 1 1 2 1 40 .read).Run (ErrorsApart .read) s trace :=
    run
  simp only [Prod.mk.injEq] at hTrace
  exact ⟨s, trace, run, hTrace.1, hTrace.2, (errors_isolated (by decide) (by decide) run).2.1 0⟩

/-- The unit brings the answer of the request that came first. -/
def translateOldest : List (Action 1 1 1 1) :=
  [.mmu 0 (.rule (.stage1 0)), .mmu 0 (.rule (.stage2 0)), .mmu 0 (.rule (.stage3 0)),
    .mmu 0 (.rule (.stage4 0)), .mmu 0 (.rule (.stage5 0))]

/-- A client's request for scatter list 0, which is not configured, is followed by one
for scatter list 1. The unit reports the first one and answers the second one. -/
def errorFirst : List (Action 1 1 1 1) :=
  [.service 0 (.tagRule .init), .service 0 (.tagRule .init), .loadClient 0 0 ⟨0, 6, 64, 8⟩,
    .loadClient 0 0 ⟨1, 5, 64, 7⟩, .mmu 0 (.rule (.stage1 0)), .mmu 0 (.rule (.stage2 0)),
    .mmu 0 (.rule .dmaError)] ++ translateOldest ++ [.checkMmuResp 0, .service 0 .takeReq]

/-- The request that was rejected goes to the bus, with the address that belongs to
the request behind it. -/
theorem rejected_request_takes_next_address :
    ∃ s trace, (machine 1 1 1 2 1 40 .read).Run (Orderly .read) s trace ∧
      loaded trace 0 = [(⟨⟨0, 6, 64, 8⟩, 0⟩, .error ⟨.sglIdInvalid, 0, 6⟩),
        (⟨⟨1, 5, 64, 7⟩, 0⟩, .ok 0x9005)] ∧
      taken trace 0 = [⟨⟨0, 6, 64, 8⟩, 0x9005, 0, 0⟩] := by
  obtain ⟨s, trace, run, hTrace⟩ := Machine.exists_run
    (show ((machine 1 1 1 2 1 40 .read).exec (Orderly .read) errorFirst (small, [])).map
        (fun d => (loaded d.2 0, taken d.2 0)) =
      some ([(⟨⟨0, 6, 64, 8⟩, 0⟩, .error ⟨.sglIdInvalid, 0, 6⟩), (⟨⟨1, 5, 64, 7⟩, 0⟩, .ok 0x9005)],
        [⟨⟨0, 6, 64, 8⟩, 0x9005, 0, 0⟩]) by decide +kernel) (small_init _)
  simp only [Prod.mk.injEq] at hTrace
  exact ⟨s, trace, run, hTrace⟩

/-- The software asks for a translation, gets it, and a client's request follows. -/
def questionFirst : List (Action 1 1 1 1) :=
  [.service 0 (.tagRule .init), .service 0 (.tagRule .init), .addrTrans 1 8] ++ translateOldest ++
    [.mmuEntry, .loadClient 0 0 ⟨1, 5, 64, 7⟩] ++ translateOldest ++ [.checkMmuResp 0]

theorem addrTrans_isolated_question_first :
    ∃ s trace, (machine 1 1 1 2 1 40 .read).Run (Separated .read) s trace ∧
      indications trace = [0x9008] ∧ (renamed trace 0).map addressed = [(⟨⟨1, 5, 64, 7⟩, 0⟩, 0x9005)] ∧
      (indications trace).map .ok <+:
        (asked trace).map (Except.map fun physAddr => physAddr.setWidth 64) := by
  obtain ⟨s, trace, run, hTrace⟩ := Machine.exists_run
    (show ((machine 1 1 1 2 1 40 .read).exec (Separated .read) questionFirst (small, [])).map
        (fun d => (indications d.2, (renamed d.2 0).map addressed)) =
      some ([0x9008], [(⟨⟨1, 5, 64, 7⟩, 0⟩, 0x9005)]) by decide +kernel) (small_init _)
  have run : (machine 1 1 1 2 1 40 .read).Run (Separated .read) s trace :=
    run
  simp only [Prod.mk.injEq] at hTrace
  exact ⟨s, trace, run, hTrace.1, hTrace.2, (addrTrans_isolated (by decide) (by decide) run).1⟩

/-- The software asks for a translation while a client's request is on its way. -/
def questionMeetsRequest : List (Action 1 1 1 1) :=
  [.service 0 (.tagRule .init), .service 0 (.tagRule .init), .addrTrans 1 8,
    .loadClient 0 0 ⟨1, 5, 64, 7⟩] ++ translateOldest ++ [.checkMmuResp 0] ++ translateOldest ++
    [.mmuEntry]

/-- The client's request is renamed with the answer to the software's question, and
the software is told the address of the client's request. -/
theorem question_and_request_swap_answers :
    ∃ s trace, (machine 1 1 1 2 1 40 .read).Run (Orderly .read) s trace ∧
      asked trace = [.ok 0x9008] ∧ indications trace = [0x9005] ∧
      loaded trace 0 = [(⟨⟨1, 5, 64, 7⟩, 0⟩, .ok 0x9005)] ∧
      (renamed trace 0).map addressed = [(⟨⟨1, 5, 64, 7⟩, 0⟩, 0x9008)] := by
  obtain ⟨s, trace, run, hTrace⟩ := Machine.exists_run
    (show ((machine 1 1 1 2 1 40 .read).exec (Orderly .read) questionMeetsRequest (small, [])).map
        (fun d => (asked d.2, indications d.2, loaded d.2 0, (renamed d.2 0).map addressed)) =
      some ([.ok 0x9008], [0x9005], [(⟨⟨1, 5, 64, 7⟩, 0⟩, .ok 0x9005)],
        [(⟨⟨1, 5, 64, 7⟩, 0⟩, 0x9008)]) by decide +kernel) (small_init _)
  simp only [Prod.mk.injEq] at hTrace
  exact ⟨s, trace, run, hTrace⟩

end MemServer
end Connectal
