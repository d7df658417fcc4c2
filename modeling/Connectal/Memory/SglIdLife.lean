import Connectal.Memory.MMUProgress
import Connectal.Memory.SglIds
import Connectal.Memory.TagProgress

/-! The life of a scatter list: its number is handed out, its region record is
written, the number is given back and the record is invalidated. A translation
reads the record in its first stage and is decided by it in its second. -/
namespace Connectal

open Rules

namespace MMU

variable {addrWidth : Nat} {s s' : MMU addrWidth} {P P' : Pipe addrWidth} {iid : BitVec 32}
  {trace events : List (Event addrWidth)}

/-- Whether a scatter list counts as configured after one more event: a region
call configures it, until its number is given back. -/
def configuredAfter (id : BitVec 5) (c : Bool) : Event addrWidth → Bool
  | .config (.region pointer _ _ _ _ _ _) => c || pointer.setWidth 5 == id
  | .idReturned sglId => c && sglId.setWidth 5 != id
  | _ => c

/-- A region call was processed for the scatter list since its number was last
given back, or since reset. -/
def configured (trace : List (Event addrWidth)) (id : BitVec 5) : Bool :=
  trace.foldl (configuredAfter id) false

/-- The region record has been written or invalidated since reset. -/
def written (trace : List (Event addrWidth)) (id : BitVec 5) : Bool :=
  (configs trace).any fun
    | .region pointer _ _ _ _ _ _ => pointer.setWidth 5 == id
    | .invalidate sglId => sglId.setWidth 5 == id
    | .sglist _ _ _ _ => false

/-- The requests that a port looked up in the second list, each with whether its
scatter list was configured at that moment. -/
def lookupsFrom (i : Fin 2) : List (Event addrWidth) → List (Event addrWidth) → List (ReqTup × Bool)
  | _, [] => []
  | before, e :: rest =>
    (match e with
      | .lookedUp k req => if k = i then [(req, configured before req.id)] else []
      | _ => []) ++ lookupsFrom i (before ++ [e]) rest

def lookups (i : Fin 2) (trace : List (Event addrWidth)) : List (ReqTup × Bool) :=
  lookupsFrom i [] trace

/-- What the second stage of a port decided, request by request. -/
def decisions (i : Fin 2) (trace : List (Event addrWidth)) : List (Except MMUError ReqTup) :=
  trace.filterMap fun
    | .passed k req => if k = i then some (.ok req) else none
    | .rejected k e => if k = i ∧ e.errorType = .sglIdInvalid then some (.error e) else none
    | _ => none

/-- The requests that a port let pass. -/
def passes (i : Fin 2) (trace : List (Event addrWidth)) : List ReqTup :=
  trace.filterMap fun | .passed k req => if k = i then some req else none | _ => none

/-- The requests that a port rejected later, for their offset. -/
def beyonds (i : Fin 2) (trace : List (Event addrWidth)) : List MMUError :=
  trace.filterMap fun
    | .rejected k e => if k = i ∧ e.errorType = .offsetOutOfRange then some e else none
    | _ => none

def rejections (trace : List (Event addrWidth)) : List MMUError :=
  trace.filterMap fun | .rejected _ e => some e | _ => none

@[simp] theorem configured_append (trace events : List (Event addrWidth)) (id : BitVec 5) :
    configured (trace ++ events) id = events.foldl (configuredAfter id) (configured trace id) := by
  simp [configured, List.foldl_append]

theorem lookupsFrom_append (i : Fin 2) (before first second : List (Event addrWidth)) :
    lookupsFrom i before (first ++ second) =
      lookupsFrom i before first ++ lookupsFrom i (before ++ first) second := by
  induction first generalizing before with
  | nil => simp [lookupsFrom]
  | cons e rest ih => simp [lookupsFrom, ih]

@[simp] theorem lookups_append (i : Fin 2) (trace events : List (Event addrWidth)) :
    lookups i (trace ++ events) = lookups i trace ++ lookupsFrom i trace events := by
  rw [lookups, lookupsFrom_append, List.nil_append, lookups]

@[simp] theorem decisions_append (i : Fin 2) (first second : List (Event addrWidth)) :
    decisions i (first ++ second) = decisions i first ++ decisions i second := by
  simp [decisions]

@[simp] theorem passes_append (i : Fin 2) (first second : List (Event addrWidth)) :
    passes i (first ++ second) = passes i first ++ passes i second := by
  simp [passes]

@[simp] theorem beyonds_append (i : Fin 2) (first second : List (Event addrWidth)) :
    beyonds i (first ++ second) = beyonds i first ++ beyonds i second := by
  simp [beyonds]

@[simp] theorem rejections_append (first second : List (Event addrWidth)) :
    rejections (first ++ second) = rejections first ++ rejections second := by
  simp [rejections]

/-- The decision that a region record leads to. -/
def verdict (l : ReqTup × Option Region) : Except MMUError ReqTup :=
  match l.2 with
  | some _ => .ok l.1
  | none => .error l.1.invalid

/-- A decision is about its own request, and a request whose scatter list was not
configured is rejected. -/
def Decides (l : ReqTup × Bool) (d : Except MMUError ReqTup) : Prop :=
  (d = .ok l.1 ∨ d = .error l.1.invalid) ∧ (l.2 = false → d = .error l.1.invalid)

/-- What becomes of the requests of each port, when every lookup leads to a
decision as the relation says. -/
structure Fates (R : ReqTup × Bool → Except MMUError ReqTup → Prop) (trace : List (Event addrWidth))
    (P : Pipe addrWidth) : Prop where
  verdicts : ∀ i, List.Forall₂ R (lookups i trace)
    (decisions i trace ++ (P.flight i).looked.map verdict)
  passes : ∀ i, (passes i trace).length = (answers i trace).length + (beyonds i trace).length +
    ((P.flight i).compared.length + (P.flight i).selected.length + (P.flight i).paged.length +
      (P.flight i).responses.length)
  rejections : rejections trace = reports trace ++ P.errors

variable {R : ReqTup × Bool → Except MMUError ReqTup → Prop}

/-- How many requests of a port are beyond its second stage. -/
def Flight.passed (F : Flight addrWidth) : Nat :=
  F.compared.length + F.selected.length + F.paged.length + F.responses.length

/-- A step at one port, judged at that port alone. -/
theorem Fates.atPort {k : Fin 2} {F : Flight addrWidth} {errors : List MMUError} (h : Fates R trace P)
    (hOther : ∀ i, i ≠ k → lookupsFrom i trace events = [] ∧ decisions i events = [] ∧
      MMU.passes i events = [] ∧ answers i events = [] ∧ beyonds i events = [])
    (hVerdicts : List.Forall₂ R (lookups k trace ++ lookupsFrom k trace events)
      (decisions k trace ++ decisions k events ++ F.looked.map verdict))
    (hPasses : (P.flight k).passed + (MMU.passes k events).length =
      (answers k events).length + (beyonds k events).length + F.passed)
    (hErrors : P.errors ++ MMU.rejections events = reports events ++ errors) :
    Fates R (trace ++ events) { P.setFlight k F with errors } := by
  constructor
  · intro i
    by_cases hi : i = k
    · subst hi
      simpa [Pipe.setFlight] using hVerdicts
    · obtain ⟨hLook, hDecide, -⟩ := hOther i hi
      simpa [Pipe.setFlight, hi, hLook, hDecide] using h.verdicts i
  · intro i
    have hOld := h.passes i
    by_cases hi : i = k
    · subst hi
      simp only [Flight.passed] at hPasses
      simp only [passes_append, answers_append, beyonds_append, List.length_append, Pipe.setFlight,
        Function.update_self]
      omega
    · obtain ⟨-, -, hPass, hAnswer, hBeyond⟩ := hOther i hi
      simpa [Pipe.setFlight, hi, hPass, hAnswer, hBeyond] using hOld
  · simp only [rejections_append, reports_append, List.append_assoc]
    rw [h.rejections, List.append_assoc, hErrors]

variable {a : Action}

theorem Fates.quiet (h : Fates R trace P) (hTables : P'.flight = P.flight) (hErrors : P'.errors = P.errors)
    (hEvents : ∀ i, lookupsFrom i trace events = [] ∧ decisions i events = [] ∧
      MMU.passes i events = [] ∧ answers i events = [] ∧ beyonds i events = [])
    (hReports : MMU.rejections events = [] ∧ reports events = []) : Fates R (trace ++ events) P' := by
  constructor
  · intro i
    obtain ⟨hLook, hDecide, -⟩ := hEvents i
    simpa [hLook, hDecide, hTables] using h.verdicts i
  · intro i
    obtain ⟨-, -, hPass, hAnswer, hBeyond⟩ := hEvents i
    simpa [hPass, hAnswer, hBeyond, hTables] using h.passes i
  · simpa [hReports.1, hReports.2, hErrors] using h.rejections

section Fates

attribute [local simp] lookupsFrom decisions MMU.passes answers beyonds MMU.rejections reports Flight.passed

/-- A step behind the second stage that nobody sees. -/
theorem Fates.inside {k : Fin 2} {F : Flight addrWidth} (h : Fates R trace P)
    (hLooked : F.looked = (P.flight k).looked) (hPassed : F.passed = (P.flight k).passed) :
    Fates R (trace ++ []) (P.setFlight k F) := by
  refine h.atPort (fun i _ => ⟨rfl, rfl, rfl, rfl, rfl⟩) ?_ (by simpa using hPassed.symm) (by simp)
  simpa [hLooked] using h.verdicts k

theorem Fates.step (h : Fates R trace P) (hs : FlowStep P a P' events)
    (hLook : ∀ i req, events = [.lookedUp i req] →
      R (req, configured trace req.id) (verdict (req, P.tables.regall req.id))) : Fates R (trace ++ events) P' := by
  cases hs with
  | put k req =>
    refine h.atPort (fun i _ => ⟨rfl, rfl, rfl, rfl, rfl⟩) ?_ (by simp) (by simp)
    simpa using h.verdicts k
  | look k req rest hEq =>
    refine h.atPort (fun i hi => by simp [Ne.symm hi]) ?_ (by simp) (by simp)
    have hNew := hLook k req rfl
    have hAll := List.rel_append (h.verdicts k) (List.Forall₂.cons hNew List.Forall₂.nil)
    simpa using hAll
  | pass k req region rest hEq =>
    refine h.atPort (fun i hi => by simp [Ne.symm hi]) ?_ ?_ (by simp)
    · have hAll := h.verdicts k
      rw [hEq] at hAll
      simpa [verdict] using hAll
    · simp
      omega
  | invalid k req rest hEq =>
    refine h.atPort (fun i hi => by simp [Ne.symm hi]) ?_ (by simp [ReqTup.invalid]) (by simp)
    have hAll := h.verdicts k
    rw [hEq] at hAll
    simpa [verdict, ReqTup.invalid] using hAll
  | select k c rest hEq | page k x rest hEq | respond k x rest hEq =>
    exact h.inside rfl (by simp [hEq]; omega)
  | outOfRange k x rest hEq hClass =>
    refine h.atPort (fun i hi => by simp [Ne.symm hi]) ?_ ?_ (by simp)
    · simpa [Selected.outOfRange] using h.verdicts k
    · simp [Selected.outOfRange, hEq]
      omega
  | get k addr rest hEq =>
    refine h.atPort (fun i hi => by simp [Ne.symm hi]) ?_ ?_ (by simp)
    · simpa using h.verdicts k
    · simp [hEq]
      omega
  | report e rest hEq =>
    refine ⟨fun i => by simpa using h.verdicts i, fun i => by simpa using h.passes i, ?_⟩
    rw [rejections_append, reports_append, h.rejections, hEq]
    simp
  | _ => exact h.quiet rfl rfl (fun i => ⟨rfl, rfl, rfl, rfl, rfl⟩) ⟨rfl, rfl⟩

end Fates

/-- The record of a scatter list that is not configured is invalid, once it has
been written at all and unless the invalidation is still to come. -/
def RecordsFresh (trace : List (Event addrWidth)) (T : Tables) (queue : List (BitVec 32)) : Prop :=
  ∀ id, written trace id = true → (∀ sglId ∈ queue, sglId.setWidth 5 ≠ id) →
    configured trace id = false → T.regall id = none

theorem RecordsFresh.quiet {T T' : Tables} {queue queue' : List (BitVec 32)}
    (h : RecordsFresh trace T queue) (hTables : T'.regall = T.regall) (hQueue : queue' = queue)
    (hEvents : ∀ id, configured (trace ++ events) id = configured trace id ∧
      written (trace ++ events) id = written trace id) : RecordsFresh (trace ++ events) T' queue' := by
  intro id hWritten hWaiting hConfigured
  rw [(hEvents id).2] at hWritten
  rw [(hEvents id).1] at hConfigured
  rw [hTables]
  exact h id hWritten (hQueue ▸ hWaiting) hConfigured

theorem RecordsFresh.step (h : RecordsFresh trace P.tables s.idReturnFifo.items)
    (hFlow : FlowStep P a P' events) (hIds : IdStep iid s s' a events) :
    RecordsFresh (trace ++ events) P'.tables s'.idReturnFifo.items := by
  cases hIds with
  | quiet _ _ hGen hQueue hEvents hConfigs =>
    cases hFlow with
    | region pointer barr8 index8 barr4 index4 barr0 index0 =>
      intro id hWritten hWaiting hConfigured
      simp only [configured_append, List.foldl_cons, List.foldl_nil, configuredAfter,
        Bool.or_eq_false_iff, beq_eq_false_iff_ne] at hConfigured
      have hOld : written trace id = true := by
        simpa [written, configs, hConfigured.2] using hWritten
      refine (Function.update_of_ne (Ne.symm hConfigured.2) _ _).trans ?_
      exact h id hOld (hQueue ▸ hWaiting) hConfigured.1
    | invalidate sglId => exact absurd (by simp [configs]) (hConfigs sglId)
    | idReturn sglId => simp [returnedIds] at hEvents
    | _ => exact h.quiet rfl (by rw [hQueue]) (fun id => by simp [configuredAfter, written, configs])
  | given tag hGen hQueue =>
    cases hFlow with
    | idRequest sglId =>
      exact h.quiet rfl (by rw [hQueue]) (fun id => by simp [configuredAfter, written, configs])
  | returned sglId hGen hQueue =>
    cases hFlow with
    | idReturn sglId =>
      intro id hWritten hWaiting hConfigured
      rw [hQueue] at hWaiting
      have hNe : sglId.setWidth 5 ≠ id := hWaiting sglId (by simp)
      refine h id ?_ (fun x hx => hWaiting x (List.mem_append_left _ hx)) ?_
      · simpa [written, configs] using hWritten
      · simpa [configuredAfter, hNe] using hConfigured
  | freed sglId hGen hQueue =>
    cases hFlow with
    | invalidate sglId =>
      intro id hWritten hWaiting hConfigured
      by_cases hEq : sglId.setWidth 5 = id
      · rw [← hEq]
        exact Function.update_self _ _ _
      · refine (Function.update_of_ne (Ne.symm hEq) _ _).trans (h id ?_ ?_ ?_)
        · simpa [written, configs, hEq] using hWritten
        · intro x hx
          rw [hQueue] at hx
          rcases List.mem_cons.mp hx with rfl | hx
          · exact hEq
          · exact hWaiting x hx
        · simpa [configuredAfter] using hConfigured
  | completed tag hGen hQueue =>
    cases hFlow with
    | completeSglId => exact h.quiet rfl (by rw [hQueue]) (fun id => by simp)
  | tagRule r genEvents hGen hQueue =>
    cases hFlow with
    | tagRule => exact h.quiet rfl (by rw [hQueue]) (fun id => by simp)

/-- What the surroundings of the unit have to see to. Software gives back only
numbers that are out. The first stage looks up a scatter list only when no return
of its number is waiting; and if its record has not been written since reset, the
block memory came up with an invalid record there. -/
def Orderly : Machine.Contract (MMU addrWidth) Action (Event addrWidth)
  | trace, _, .idReturn sglId => (returnedIds trace).count sglId < (givenIds trace).count sglId
  | trace, s, .rule (.stage1 i) => ∀ req ∈ (s.port i).incomingReqs.items.head?,
      (∀ sglId ∈ s.idReturnFifo.items, sglId.setWidth 5 ≠ req.id) ∧
        (written trace req.id = false → s.regall.mem req.id = none)
  | _, _, _ => True

theorem Orderly.returnsOut (h : Orderly trace s a) : ReturnsOut trace s a := by
  cases a with
  | idReturn sglId => exact h
  | _ => trivial

/-- All that is known about a reachable state. -/
structure LifeInv (iid : BitVec 32) (trace : List (Event addrWidth)) (s : MMU addrWidth)
    (P : Pipe addrWidth) (L : TagLedger) (pending : List Nat) : Prop where
  abstracts : Abstracts s P
  ids : IdInv iid trace s L pending
  records : RecordsFresh trace P.tables s.idReturnFifo.items
  fates : Fates Decides trace P

/-- A lookup that the contract admits finds no record of a scatter list that is
not configured. -/
theorem LifeInv.lookup {L : TagLedger} {pending : List Nat} {i : Fin 2} {req : ReqTup}
    (h : LifeInv iid trace s P L pending) (hOk : Orderly trace s a)
    (hFlow : FlowStep P a P' [.lookedUp i req]) (hConfigured : configured trace req.id = false) :
    P.tables.regall req.id = none := by
  cases hFlow with
  | look _ _ rest hIncoming =>
    have hHead : req ∈ (s.port i).incomingReqs.items.head? := by
      rw [(h.abstracts.flight i).incoming, hIncoming]
      rfl
    obtain ⟨hWaiting, hReset⟩ := hOk req hHead
    cases hWritten : written trace req.id with
    | true => exact h.records req.id hWritten hWaiting hConfigured
    | false =>
      rw [← h.abstracts.tables]
      exact hReset hWritten

theorem LifeInv.step {L : TagLedger} {pending : List Nat}
    (h : LifeInv iid trace s P L pending) (hOk : Orderly trace s a)
    (hs : fire iid a s = some (s', events)) :
    ∃ P' L' pending', LifeInv iid (trace ++ events) s' P' L' pending' := by
  obtain ⟨P', hAbs, hFlow⟩ := fire_flow h.abstracts hs
  have hIds := fire_ids hs
  obtain ⟨L', pending', hInv⟩ := h.ids.step hOk.returnsOut hIds
  refine ⟨P', L', pending', hAbs, hInv, h.records.step hFlow hIds, h.fates.step hFlow ?_⟩
  rintro i req rfl
  have hNone := h.lookup hOk hFlow
  cases hRecord : P.tables.regall req.id with
  | none => exact ⟨.inr rfl, fun _ => rfl⟩
  | some region =>
    refine ⟨.inl rfl, fun hConfigured => ?_⟩
    rw [hNone hConfigured] at hRecord
    cases hRecord

theorem run_life (run : (machine addrWidth iid).Run Orderly s trace) :
    ∃ P L pending, LifeInv iid trace s P L pending := by
  refine run.invariant (fun trace s => ∃ P L pending, LifeInv iid trace s P L pending) ?_ ?_
  · rintro s ⟨tagMem, regMem, pageMem, rfl⟩
    refine ⟨_, TagLedger.start, [], powerUp_abstracts tagMem regMem pageMem,
      powerUp_idInv tagMem regMem pageMem, ?_, ?_⟩
    · intro id hWritten
      simp [written, configs] at hWritten
    · constructor
      · intro i
        exact List.Forall₂.nil
      · intro i
        rfl
      · rfl
  · rintro trace s action s' events ⟨P, L, pending, h⟩ hOk hs
    exact h.step hOk hs

theorem FlowStep.lookups_nil (hs : FlowStep P a P' events) (ha : a.Settles) (i : Fin 2) :
    lookupsFrom i trace events = [] := by
  cases hs with
  | look k req rest h => exact ha.elim
  | _ => rfl

theorem Action.Settles.orderly (ha : a.Settles) : Orderly trace s a := by
  cases a with
  | rule r =>
    cases r with
    | stage1 i => exact ha.elim
    | _ => trivial
  | idReturn sglId => exact ha.elim
  | _ => trivial

theorem settles_lookups {more : List (Event addrWidth)} (h : Abstracts s P)
    (path : (machine addrWidth iid).Continues (fun _ _ a => a.Settles) (s, trace) (s', trace ++ more))
    (i : Fin 2) : lookups i (trace ++ more) = lookups i trace := by
  obtain ⟨-, -, hSame⟩ := path.invariant
    (fun t s' => ∃ P', Abstracts s' P' ∧ lookups i t = lookups i trace)
    (by
      rintro t u action u' events ⟨Q, hQ, hSame⟩ hOk hs
      obtain ⟨Q', hQ', hFlow⟩ := fire_flow hQ hs
      exact ⟨Q', hQ', by rw [lookups_append, hFlow.lookups_nil hOk, List.append_nil, hSame]⟩)
    ⟨P, h, rfl⟩
  exact hSame

theorem Fates.verdict {i : Fin 2} {k : Nat} {l : ReqTup × Bool} {d : Except MMUError ReqTup}
    (h : Fates R trace P) (hl : (lookups i trace)[k]? = some l) (hd : (decisions i trace)[k]? = some d) :
    R l d := by
  have hk : k < (decisions i trace).length := (List.getElem_of_getElem? hd).1
  rw [← @List.getElem?_append_left _ _ ((P.flight i).looked.map MMU.verdict) _ hk] at hd
  obtain ⟨hkl, rfl⟩ := List.getElem_of_getElem? hl
  obtain ⟨hkd, rfl⟩ := List.getElem_of_getElem? hd
  exact (h.verdicts i).get hkl hkd

/-- Numbers of scatter lists that are out are pairwise distinct. A request whose
scatter list was not configured when it was looked up is decided against, with
the report of an invalid scatter list; addresses are given only for requests that
were let pass. All requests that were looked up can be decided, and all reports
made, in an orderly continuation. -/
theorem ids_distinct_and_unconfigured_rejected
    (run : (machine addrWidth iid).Run Orderly s trace) :
    (outIds trace).Nodup ∧
    (∀ i (k : Nat) l d, (lookups i trace)[k]? = some l → (decisions i trace)[k]? = some d → Decides l d) ∧
    (∀ i, (answers i trace).length + (beyonds i trace).length ≤ (passes i trace).length) ∧
    reports trace <+: rejections trace ∧
    ∃ s' more, (machine addrWidth iid).Continues Orderly (s, trace) (s', trace ++ more) ∧
      (∀ i, List.Forall₂ Decides (lookups i trace) (decisions i (trace ++ more))) ∧
      reports (trace ++ more) = rejections (trace ++ more) := by
  obtain ⟨P, L, pending, h⟩ := run_life run
  refine ⟨h.ids.outIds_nodup, fun i k l d hl hd => h.fates.verdict hl hd, ?_, ?_, ?_⟩
  · intro i
    rw [h.fates.passes i]
    exact Nat.le_add_right _ _
  · rw [h.fates.rejections]
    exact List.prefix_append _ _
  · obtain ⟨s', P', more, path, hReached, hSettled, hErrors⟩ := settles iid h.abstracts trace
    have orderly : (machine addrWidth iid).Continues Orderly (s, trace) (s', trace ++ more) :=
      path.weaken fun _ _ _ ha => ha.orderly
    obtain ⟨Q, L', pending', h'⟩ := run_life (run.continue orderly)
    refine ⟨s', more, orderly, ?_, ?_⟩
    · intro i
      have hAll := h'.fates.verdicts i
      have hLooked : ((Q.flight i).looked.map Prod.fst) = [] := by
        rw [← (h'.abstracts.flight i).reqs0, (hReached.abstracts.flight i).reqs0, (hSettled i).looked]
        rfl
      rw [List.map_eq_nil_iff] at hLooked
      rw [settles_lookups h.abstracts path i, hLooked, List.map_nil, List.append_nil] at hAll
      exact hAll
    · rw [h'.fates.rejections, ← h'.abstracts.errors, hReached.abstracts.errors, hErrors,
        List.append_nil]

instance (trace : List (Event addrWidth)) (s : MMU addrWidth) (a : Action) :
    Decidable (Orderly trace s a) :=
  match a with
  | .idReturn _ => inferInstanceAs (Decidable (_ < _))
  | .rule (.stage1 i) =>
    -- over the items of the queue, not over all bit vectors
    have : ∀ req : ReqTup, Decidable (∀ sglId ∈ s.idReturnFifo.items, sglId.setWidth 5 ≠ req.id) :=
      fun _ => List.decidableBAll _ _
    inferInstanceAs (Decidable (∀ req ∈ (s.port i).incomingReqs.items.head?,
      (∀ sglId ∈ s.idReturnFifo.items, sglId.setWidth 5 ≠ req.id) ∧
        (written trace req.id = false → s.regall.mem req.id = none)))
  | .rule (.stage2 _) | .rule (.stage3 _) | .rule (.stage4 _) | .rule (.stage5 _) | .rule .dmaError
  | .rule .sendConfigResp | .rule .idReturnRule | .rule .completeSglIdGen | .rule (.tagRule _)
  | .put _ _ | .get _ | .idRequest | .region _ _ _ _ _ _ _ | .sglist _ _ _ _ => .isTrue trivial

/-- The unit after reset and after the initialisation of its number generator. -/
def initialised (regMem : BitVec 5 → Option Region) (pageMem : BitVec 5 × BitVec 8 → BitVec 32) :
    MMU addrWidth :=
  { powerUp (fun _ => false) regMem pageMem with
    sglIdGen := { TagGen.powerUp (fun _ => false) with inited := true } }

/-- The number generator gets initialised whatever its memory held. -/
theorem powerUp_initialises (iid : BitVec 32) (tagMem : BitVec 5 → Bool)
    (regMem : BitVec 5 → Option Region) (pageMem : BitVec 5 × BitVec 8 → BitVec 32) :
    (machine addrWidth iid).Continues Orderly (powerUp tagMem regMem pageMem, [])
      (initialised regMem pageMem, []) := by
  let unit (g : TagGen 32 5) : MMU addrWidth := { powerUp tagMem regMem pageMem with sglIdGen := g }
  have path : (TagGen.machine 32 5).Continues (fun _ _ a => a = .rule .init)
      (TagGen.powerUp tagMem, []) ((TagGen.powerUp tagMem).cleared, []) :=
    TagGen.init_completes rfl rfl
  have hClear : (TagGen.powerUp tagMem : TagGen 32 5).cleared =
      { TagGen.powerUp (fun _ => false) with inited := true } := by
    have hMem : (fun a => if 0#5 ≤ a then false else tagMem a) = fun _ => false := by
      funext a
      exact if_pos (BitVec.le_def.mpr (Nat.zero_le _))
    simp only [TagGen.cleared, TagGen.powerUp, Bram.powerUp]
    rw [← hMem]
    rfl
  obtain ⟨⟨_, _⟩, lifted, rfl, rfl⟩ : ∃ e, (machine addrWidth iid).Continues Orderly
      (powerUp tagMem regMem pageMem, []) e ∧ e.1 = unit (TagGen.powerUp tagMem).cleared ∧ e.2 = [] := by
    refine path.lift (fun c e => e.1 = unit c.1 ∧ e.2 = []) ?_ ⟨rfl, rfl⟩
    rintro ⟨g, _⟩ ⟨g', _⟩ ⟨_, _⟩ ⟨_, events, rfl, hs, -⟩ ⟨rfl, rfl⟩
    have hs' : TagGen.runRule .init g = some (g', events) := hs
    have hFire : (machine addrWidth iid).fire (.rule (.tagRule .init)) (unit g) =
        some (unit g', []) := by
      simp only [machine, fire, runRule, unit, hs', Option.map_some]
    have hOk : Orderly [] (unit g) (.rule (.tagRule .init)) := trivial
    exact ⟨(unit g', []), Machine.Continues.tail Relation.ReflTransGen.refl hOk hFire, rfl, rfl⟩
  rwa [hClear] at lifted

/-- Get a number, configure one page of 4 KB for it, translate, give the number
back, and ask for the translation again. -/
def oneLife : List Action :=
  [.idRequest, .sglist 0 0 7 4096, .region 0 0 0 0 0 1 0, .put 0 ⟨0, 5⟩, .rule (.stage1 0),
    .rule (.stage2 0), .rule (.stage3 0), .rule (.stage4 0), .rule (.stage5 0), .get 0, .idReturn 0,
    .rule .idReturnRule, .put 0 ⟨0, 5⟩, .rule (.stage1 0), .rule (.stage2 0), .rule .dmaError]

/-- In this life the first request is answered and the second is reported. -/
theorem ids_distinct_and_unconfigured_rejected_one_life :
    ∃ s trace, (machine 40 0).Run Orderly s trace ∧
      lookups 0 trace = [(⟨0, 5⟩, true), (⟨0, 5⟩, false)] ∧ answers 0 trace = [0x7005] ∧
      reports trace = [⟨.sglIdInvalid, 0, 5⟩] ∧ (outIds trace).Nodup := by
  obtain ⟨⟨s, trace⟩, hd, hTrace⟩ := Option.map_eq_some_iff.mp
    (show ((machine 40 0).exec Orderly oneLife
        (initialised (fun _ => none) (fun _ => 0), [])).map
        (fun d => (lookups 0 d.2, answers 0 d.2, reports d.2)) =
      some ([(⟨0, 5⟩, true), (⟨0, 5⟩, false)], [0x7005], [⟨.sglIdInvalid, 0, 5⟩]) by decide +kernel)
  have run : (machine 40 0).Run Orderly s trace :=
    ⟨powerUp (fun _ => true) (fun _ => none) (fun _ => 0), ⟨_, _, _, rfl⟩,
      (powerUp_initialises 0 _ _ _).trans (Machine.exec_continues hd)⟩
  simp only [Prod.mk.injEq] at hTrace
  exact ⟨s, trace, run, hTrace.1, hTrace.2.1, hTrace.2.2,
    (ids_distinct_and_unconfigured_rejected run).1⟩

/-- A request through all stages of the first port. -/
def translateOnce (req : ReqTup) : List Action :=
  [.put 0 req, .rule (.stage1 0), .rule (.stage2 0), .rule (.stage3 0), .rule (.stage4 0),
    .rule (.stage5 0), .get 0]

/-- Scatter lists that are not configured get translated. In the first run nothing
is ever configured, but the block memory came up with a record. In the second run
it came up with invalid records; scatter list 0 is configured and given back, and
its return still waits for `idReturnRule` when the request is looked up. -/
theorem unconfigured_translated :
    (∃ s trace, (machine 40 0).Run (fun _ _ _ => True) s trace ∧ configs trace = [] ∧
      lookups 0 trace = [(⟨3, 0⟩, false)] ∧ answers 0 trace = [0x9000] ∧ reports trace = []) ∧
    ∃ s trace, (machine 40 0).Run (fun _ _ _ => True) s trace ∧ returnedIds trace = [0] ∧
      lookups 0 trace = [(⟨0, 5⟩, false)] ∧ answers 0 trace = [0x7005] ∧ reports trace = [] := by
  constructor
  · obtain ⟨⟨s, trace⟩, hd, hTrace⟩ := Option.map_eq_some_iff.mp
      (show ((machine 40 0).exec (fun _ _ _ => True) (translateOnce ⟨3, 0⟩)
          (powerUp (fun _ => false) (fun _ => some ⟨⟨0, 0⟩, ⟨0, 0⟩, ⟨1, 0⟩⟩) (fun _ => 9), [])).map
          (fun d => (configs d.2, lookups 0 d.2, answers 0 d.2, reports d.2)) =
        some ([], [(⟨3, 0⟩, false)], [0x9000], []) by decide +kernel)
    simp only [Prod.mk.injEq] at hTrace
    exact ⟨s, trace, ⟨_, ⟨_, _, _, rfl⟩, Machine.exec_continues hd⟩, hTrace⟩
  · obtain ⟨⟨s, trace⟩, hd, hTrace⟩ := Option.map_eq_some_iff.mp
      (show ((machine 40 0).exec (fun _ _ _ => True)
          ([.idRequest, .sglist 0 0 7 4096, .region 0 0 0 0 0 1 0, .idReturn 0] ++ translateOnce ⟨0, 5⟩)
          (initialised (fun _ => none) (fun _ => 0), [])).map
          (fun d => (returnedIds d.2, lookups 0 d.2, answers 0 d.2, reports d.2)) =
        some ([0], [(⟨0, 5⟩, false)], [0x7005], []) by decide +kernel)
    simp only [Prod.mk.injEq] at hTrace
    refine ⟨s, trace, ⟨powerUp (fun _ => true) (fun _ => none) (fun _ => 0), ⟨_, _, _, rfl⟩, ?_⟩, hTrace⟩
    exact ((powerUp_initialises 0 _ _ _).weaken fun _ _ _ _ => trivial).trans (Machine.exec_continues hd)

end MMU
end Connectal
