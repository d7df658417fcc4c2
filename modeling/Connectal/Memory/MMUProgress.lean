import Connectal.Memory.MMURun

/-! Progress of the translation unit. Every request in flight can be brought to
its answer or its report by firing rules of the unit and taking its answers:
each of these steps leaves less to be done. -/
namespace Connectal

open Rules

namespace MMU

variable {addrWidth : Nat} {s s' : MMU addrWidth} {P P' : Pipe addrWidth} {iid : BitVec 32}

/-- The rules that move requests through the pipeline and errors out of it. -/
def Rule.Pipeline : Rule → Prop
  | .stage1 _ | .stage2 _ | .stage3 _ | .stage4 _ | .stage5 _ | .dmaError => True
  | .sendConfigResp | .idReturnRule | .completeSglIdGen | .tagRule _ => False

/-- How much work the requests of a port still need. -/
def Flight.work (F : Flight addrWidth) : Nat :=
  5 * F.incoming.length + 4 * F.looked.length + 3 * F.compared.length + 2 * F.selected.length +
    F.paged.length

/-- No request of a port is between its first stage and its answer. -/
structure Flight.Settled (F : Flight addrWidth) : Prop where
  looked : F.looked = []
  compared : F.compared = []
  selected : F.selected = []
  paged : F.paged = []

section Enabled

variable {i : Fin 2}

section

variable (h : Abstracts s P)

include h

theorem exists_stage5 {x : Offset × BitVec 32} {rest : List (Offset × BitVec 32)}
    (hPaged : (P.flight i).paged = x :: rest) (hRoom : (P.flight i).responses = []) :
    ∃ t, s.stage5 i = some t := by
  have hF := h.flight i
  obtain ⟨q, hq, -⟩ := Fifo.exists_deq (hF.entries.trans (by rw [hPaged]; rfl))
  obtain ⟨o, ho, -⟩ := Fifo.exists_deq (hF.offs1.trans (by rw [hPaged]; rfl))
  obtain ⟨r, hr, -⟩ := Fifo.exists_enq_nil (hF.responses.trans hRoom) (x.1.address addrWidth x.2)
  simp [stage5, Bram.get, hq, ho, hr]

theorem exists_stage4 {x : Selected} {rest : List Selected}
    (hSelected : (P.flight i).selected = x :: rest) (hPaged : (P.flight i).paged = [])
    (hErrors : P.errors.length < 2) : ∃ t, s.stage4 i = some t := by
  have hF := h.flight i
  obtain ⟨o, ho, -⟩ := Fifo.exists_deq (hF.offs0.trans (by rw [hSelected]; rfl))
  obtain ⟨b, hb, -⟩ := Fifo.exists_deq (hF.pbases.trans (by rw [hSelected]; rfl))
  obtain ⟨d, hd, -⟩ := Fifo.exists_deq (hF.idxOffsets1.trans (by rw [hSelected]; rfl))
  obtain ⟨p, hp, -⟩ := Fifo.exists_deq (hF.ptrs1.trans (by rw [hSelected]; rfl))
  by_cases hClass : x.off.pageSize = 0#2
  · obtain ⟨e, he, -⟩ := Fifo.exists_enq (q := s.dmaErrorFifo) (by rw [h.errors]; exact hErrors)
      x.outOfRange
    simp [stage4, ho, hb, hd, hp, hClass, he]
  · obtain ⟨q, hq, -⟩ := Fifo.exists_enq_nil (hF.entries.trans (by rw [hPaged]; rfl)) (s.pages.mem x.entry)
    obtain ⟨f, hf, -⟩ := Fifo.exists_enq_nil (hF.offs1.trans (by rw [hPaged]; rfl)) x.off
    simp [stage4, ho, hb, hd, hp, hClass, Bram.read, hq, hf]

theorem exists_stage3 {c : Compared} {rest : List Compared}
    (hCompared : (P.flight i).compared = c :: rest) (hSelected : (P.flight i).selected = []) :
    ∃ t, s.stage3 i = some t := by
  have hF := h.flight i
  obtain ⟨q, hq, -⟩ := Fifo.exists_deq (hF.reqs1.trans (by rw [hCompared]; rfl))
  obtain ⟨r, hr, -⟩ := Fifo.exists_deq (hF.conds.trans (by rw [hCompared]; rfl))
  obtain ⟨d, hd, -⟩ := Fifo.exists_deq (hF.idxOffsets0.trans (by rw [hCompared]; rfl))
  obtain ⟨o, ho, -⟩ := Fifo.exists_enq_nil (hF.offs0.trans (by rw [hSelected]; rfl)) c.select.off
  obtain ⟨b, hb, -⟩ := Fifo.exists_enq_nil (hF.pbases.trans (by rw [hSelected]; rfl)) c.select.pbase
  obtain ⟨e, he, -⟩ := Fifo.exists_enq_nil (hF.idxOffsets1.trans (by rw [hSelected]; rfl)) c.select.idxOffset
  obtain ⟨p, hp, -⟩ := Fifo.exists_enq_nil (hF.ptrs1.trans (by rw [hSelected]; rfl)) c.select.ptr
  simp [stage3, hq, hr, hd, ho, hb, he, hp]

theorem exists_stage2 {l : ReqTup × Option Region}
    {rest : List (ReqTup × Option Region)} (hLooked : (P.flight i).looked = l :: rest)
    (hCompared : (P.flight i).compared = []) (hErrors : P.errors.length < 2) : ∃ t, s.stage2 i = some t := by
  have hF := h.flight i
  obtain ⟨req, m⟩ := l
  obtain ⟨q, hq, -⟩ := Fifo.exists_deq (hF.reqs0.trans (by rw [hLooked]; rfl))
  obtain ⟨r, hr, -⟩ := Fifo.exists_deq (hF.regions.trans (by rw [hLooked]; rfl))
  cases m with
  | some region =>
    obtain ⟨c, hc, -⟩ := Fifo.exists_enq_nil (hF.conds.trans (by rw [hCompared]; rfl)) (region.conds req.off)
    obtain ⟨d, hd, -⟩ := Fifo.exists_enq_nil (hF.idxOffsets0.trans (by rw [hCompared]; rfl)) region.idxOffsets
    obtain ⟨e, he, -⟩ := Fifo.exists_enq_nil (hF.reqs1.trans (by rw [hCompared]; rfl)) req
    simp [stage2, hq, Bram.get, hr, hc, hd, he]
  | none =>
    obtain ⟨e, he, -⟩ := Fifo.exists_enq (q := s.dmaErrorFifo) (by rw [h.errors]; exact hErrors)
      req.invalid
    simp [stage2, hq, Bram.get, hr, he]

theorem exists_stage1 {req : ReqTup} {rest : List ReqTup}
    (hIncoming : (P.flight i).incoming = req :: rest) (hLooked : (P.flight i).looked = []) :
    ∃ t, s.stage1 i = some t := by
  have hF := h.flight i
  obtain ⟨q, hq, -⟩ := Fifo.exists_deq (hF.incoming.trans hIncoming)
  obtain ⟨r, hr, -⟩ := Fifo.exists_enq_nil (hF.regions.trans (by rw [hLooked]; rfl)) (s.regall.mem req.id)
  obtain ⟨e, he, -⟩ := Fifo.exists_enq_nil (hF.reqs0.trans (by rw [hLooked]; rfl)) req
  simp [stage1, hq, Bram.read, hr, he]

end

end Enabled

/-- The port that a stage of the pipeline belongs to. -/
def Rule.port : Rule → Option (Fin 2)
  | .stage1 i | .stage2 i | .stage3 i | .stage4 i | .stage5 i => some i
  | .dmaError | .sendConfigResp | .idReturnRule | .completeSglIdGen | .tagRule _ => none

variable {i : Fin 2}

theorem Rule.pipeline_of_port {r : Rule} (h : r.port = some i) : r.Pipeline := by
  cases r <;> trivial

/-- What a stage does to the amount of work. -/
structure Advances (i : Fin 2) (P P' : Pipe addrWidth) : Prop where
  work : (P'.flight i).work < (P.flight i).work
  output : (P'.flight i).responses.length + P'.errors.length ≤
    (P.flight i).responses.length + P.errors.length + 1
  others : ∀ k, k ≠ i → P'.flight k = P.flight k

theorem Advances.setFlight {F : Flight addrWidth} {errors : List MMUError}
    (hWork : F.work < (P.flight i).work)
    (hOutput : F.responses.length + errors.length ≤
      (P.flight i).responses.length + P.errors.length + 1) :
    Advances i P { P.setFlight i F with errors } := by
  refine ⟨?_, ?_, ?_⟩
  · simpa [Pipe.setFlight] using hWork
  · simpa [Pipe.setFlight] using hOutput
  · intro k hk
    simp [Pipe.setFlight, hk]

variable {events : List (Event addrWidth)}

theorem FlowStep.advances {r : Rule}
    (hs : FlowStep P (.rule r) P' events) (hr : r.port = some i) : Advances i P P' := by
  cases hs <;> cases hr
  all_goals exact Advances.setFlight (by simp [Flight.work, *] <;> omega) (by simp <;> omega)

/-- A port with work to do and no answer to be taken can make a step, provided
that there is room for an error report. New requests are looked up only when the
others are settled. -/
theorem exists_stage (h : Abstracts s P) (hErrors : P.errors.length < 2)
    (hIdle : (P.flight i).responses = []) (hWork : 0 < (P.flight i).work) :
    ∃ r s' events, r.port = some i ∧ runRule r s = some (s', events) ∧
      ∀ k, r = .stage1 k → (P.flight i).Settled := by
  cases hPaged : (P.flight i).paged with
  | cons x rest =>
    obtain ⟨t, ht⟩ := exists_stage5 h hPaged hIdle
    exact ⟨.stage5 i, t, [], rfl, by simp only [runRule, ht]; rfl, (fun _ h => by cases h)⟩
  | nil =>
  cases hSelected : (P.flight i).selected with
  | cons x rest =>
    obtain ⟨t, ht⟩ := exists_stage4 h hSelected hPaged hErrors
    exact ⟨.stage4 i, t.2, _, rfl, by simp only [runRule, ht]; rfl, (fun _ h => by cases h)⟩
  | nil =>
  cases hCompared : (P.flight i).compared with
  | cons c rest =>
    obtain ⟨t, ht⟩ := exists_stage3 h hCompared hSelected
    exact ⟨.stage3 i, t, [], rfl, by simp only [runRule, ht]; rfl, (fun _ h => by cases h)⟩
  | nil =>
  cases hLooked : (P.flight i).looked with
  | cons l rest =>
    obtain ⟨t, ht⟩ := exists_stage2 h hLooked hCompared hErrors
    exact ⟨.stage2 i, t.2, _, rfl, by simp only [runRule, ht]; rfl, (fun _ h => by cases h)⟩
  | nil =>
  cases hIncoming : (P.flight i).incoming with
  | cons req rest =>
    obtain ⟨t, ht⟩ := exists_stage1 h hIncoming hLooked
    exact ⟨.stage1 i, t.2, _, rfl, by simp only [runRule, ht]; rfl,
      fun _ _ => ⟨hLooked, hCompared, hSelected, hPaged⟩⟩
  | nil => simp [Flight.work, hPaged, hSelected, hCompared, hLooked, hIncoming] at hWork

/-- Pipeline rules only. -/
def Action.Pipeline : Action → Prop
  | .rule r => r.Pipeline
  | _ => False

/-- Pipeline rules, and answers being taken. -/
def Action.Drains : Action → Prop
  | .rule r => r.Pipeline
  | .get _ => True
  | _ => False

variable {a : Action}

theorem Action.Pipeline.drains (h : a.Pipeline) : a.Drains := by
  cases a <;> first | exact h | exact h.elim

theorem FlowStep.quiet (hs : FlowStep P a P' events) (ha : a.Drains) :
    configs events = [] ∧ ∀ k, requests k events = [] := by
  cases hs with
  | put | sglist | region | invalidate => exact ha.elim
  | _ => exact ⟨rfl, fun _ => rfl⟩

/-- What holds after a while in which no new requests were taken. -/
structure Reached (P : Pipe addrWidth) (s' : MMU addrWidth) (P' : Pipe addrWidth)
    (later : List (Event addrWidth)) : Prop where
  abstracts : Abstracts s' P'
  conserves : Conserves P P' later
  configs : configs later = []
  requests : ∀ k, requests k later = []

theorem Reached.refl (h : Abstracts s P) : Reached P s P [] :=
  ⟨h, Conserves.refl P, rfl, fun _ => rfl⟩

theorem Reached.step {t : MMU addrWidth} {Q : Pipe addrWidth}
    {later : List (Event addrWidth)} (h : Reached P s' P' later) (ha : a.Drains)
    (hAbs : Abstracts t Q) (hFlow : FlowStep P' a Q events) : Reached P t Q (later ++ events) where
  abstracts := hAbs
  conserves := h.conserves.trans (hFlow.conserves (hFlow.quiet ha).1)
  configs := by rw [configs_append, (hFlow.quiet ha).1, h.configs, List.nil_append]
  requests k := by rw [requests_append, (hFlow.quiet ha).2 k, h.requests k, List.nil_append]

/-- What some allowed step always brings closer can be reached by allowed steps. -/
theorem exists_reached (iid : BitVec 32) (allowed : Action → Prop) (hDrains : ∀ a, allowed a → a.Drains)
    (measure : Pipe addrWidth → Nat) (Goal : Pipe addrWidth → Prop)
    (hStep : ∀ (s : MMU addrWidth) P, Abstracts s P → Goal P ∨
      ∃ a t events Q, allowed a ∧ fire iid a s = some (t, events) ∧ Abstracts t Q ∧
        FlowStep P a Q events ∧ measure Q < measure P)
    (h : Abstracts s P) (trace : List (Event addrWidth)) :
    ∃ s' P' later, (machine addrWidth iid).Continues (fun _ _ a => allowed a) (s, trace)
      (s', trace ++ later) ∧ Reached P s' P' later ∧ Goal P' := by
  let Inv (n : Nat) (t : List (Event addrWidth)) (s' : MMU addrWidth) : Prop :=
    ∃ P' later, t = trace ++ later ∧ Reached P s' P' later ∧ measure P' = n
  have hStart : Inv _ trace s := ⟨P, [], by simp, Reached.refl h, rfl⟩
  suffices hGoal : ∃ s' trace', (machine addrWidth iid).Continues (fun _ _ a => allowed a) (s, trace)
      (s', trace') ∧ ∃ P' later, trace' = trace ++ later ∧ Reached P s' P' later ∧ Goal P' by
    obtain ⟨s', _, path, P', later, rfl, hDone⟩ := hGoal
    exact ⟨s', P', later, path, hDone⟩
  refine Machine.exists_continues Inv _ ?_ hStart
  rintro n t s' ⟨P', later, rfl, hReached, rfl⟩
  rcases hStep s' P' hReached.abstracts with hGoal | ⟨a, u, events, Q, ha, hs, hAbs, hFlow, hLess⟩
  · exact Or.inl ⟨P', later, rfl, hReached, hGoal⟩
  · exact Or.inr ⟨_, hLess, a, u, events, ha, hs, Q, later ++ events, by simp,
      hReached.step (hDrains a ha) hAbs hFlow, rfl⟩

theorem exists_report (h : Abstracts s P) {e : MMUError} {rest : List MMUError}
    (hErrors : P.errors = e :: rest) :
    ∃ s', runRule .dmaError s = some (s', [.reported e]) ∧ Abstracts s' { P with errors := rest } ∧
      FlowStep P (.rule .dmaError) { P with errors := rest } [.reported e] := by
  obtain ⟨q, hq, hItems⟩ := Fifo.exists_deq (h.errors.trans hErrors)
  refine ⟨{ s with dmaErrorFifo := q }, by simp [runRule, dmaError, hq], ?_, .report e rest hErrors⟩
  exact ⟨h.tables, h.flight, hItems⟩

/-- What is left to be done at a port, and with the errors. -/
def Pipe.load (P : Pipe addrWidth) (i : Fin 2) : Nat :=
  2 * (P.flight i).work + (P.flight i).responses.length

/-- A port with work to do and no answer to be taken is moved on by some rule of
the pipeline: by one of its stages, or by a report that makes room for errors. -/
theorem exists_pipeline_step (h : Abstracts s P) (hIdle : (P.flight i).responses = [])
    (hWork : 0 < (P.flight i).work) :
    ∃ r t events Q, r.Pipeline ∧ runRule r s = some (t, events) ∧ Abstracts t Q ∧
      FlowStep P (.rule r) Q events ∧ Q.load i + Q.errors.length < P.load i + P.errors.length ∧
      (∀ k, k ≠ i → Q.flight k = P.flight k) ∧ ∀ k, r = .stage1 k → (P.flight i).Settled := by
  by_cases hErrors : P.errors.length < 2
  · obtain ⟨r, t, events, hPort, hs, hFirst⟩ := exists_stage h hErrors hIdle hWork
    obtain ⟨Q, hAbs, hFlow⟩ := fire_flow h (show fire 0 (.rule r) s = some (t, events) from hs)
    obtain ⟨hLess, hOutput, hOthers⟩ := hFlow.advances hPort
    exact ⟨r, t, events, Q, Rule.pipeline_of_port hPort, hs, hAbs, hFlow,
      by simp only [Pipe.load]; omega, hOthers, hFirst⟩
  · cases hCons : P.errors with
    | nil => simp [hCons] at hErrors
    | cons e rest =>
      obtain ⟨t, hs, hAbs, hFlow⟩ := exists_report h hCons
      exact ⟨.dmaError, t, _, _, trivial, hs, hAbs, hFlow, by simp [Pipe.load], fun _ _ => rfl, (fun _ h => by cases h)⟩

theorem FlowStep.answers_nil
    (hs : FlowStep P a P' events) (ha : a.Pipeline) (k : Fin 2) : answers k events = [] := by
  cases hs with
  | get i addr rest h => exact ha.elim
  | _ => rfl

/-- A port that owes an answer has one to be taken, or work to do. -/
theorem work_pos_of_due (hDue : P.due i ≠ []) (hIdle : (P.flight i).responses = []) :
    0 < (P.flight i).work := by
  by_contra hZero
  have hWork : (P.flight i).work = 0 := by omega
  simp only [Flight.work, Nat.add_eq_zero_iff, Nat.mul_eq_zero, List.length_eq_zero_iff] at hWork
  refine hDue ?_
  simp_all [Pipe.due, Flight.outcomes, oks]

/-- Pipeline rules alone give no answers away, however long they run. -/
theorem pipeline_answers {trace later : List (Event addrWidth)} (h : Abstracts s P)
    (path : (machine addrWidth iid).Continues (fun _ _ a => a.Pipeline) (s, trace) (s', trace ++ later))
    (k : Fin 2) : answers k later = [] := by
  obtain ⟨-, -, hAnswers⟩ := path.invariant
    (fun t s' => ∃ P', Abstracts s' P' ∧ answers k t = answers k trace)
    (by
      rintro t u action u' events ⟨Q, hQ, hAnswers⟩ hOk hs
      obtain ⟨Q', hQ', hFlow⟩ := fire_flow hQ hs
      exact ⟨Q', hQ', by rw [answers_append, hFlow.answers_nil hOk, List.append_nil, hAnswers]⟩)
    ⟨P, h, rfl⟩
  rw [answers_append] at hAnswers
  exact List.append_right_eq_self.mp hAnswers

/-- A port that owes an answer can be brought to give it, by rules of the unit
alone. -/
theorem exists_response (iid : BitVec 32) (h : Abstracts s P) (hDue : P.due i ≠ [])
    (trace : List (Event addrWidth)) :
    ∃ s' P' later, (machine addrWidth iid).Continues (fun _ _ a => a.Pipeline) (s, trace)
        (s', trace ++ later) ∧ Reached P s' P' later ∧ (∀ k, answers k later = []) ∧
      (P'.flight i).responses ≠ [] := by
  obtain ⟨s', P', later, path, hReached, hGoal⟩ := exists_reached iid Action.Pipeline
    (fun _ ha => ha.drains) (fun P => P.load i + P.errors.length)
    (fun P => P.due i = [] ∨ (P.flight i).responses ≠ []) (by
      intro s P h
      by_cases hDone : P.due i = [] ∨ (P.flight i).responses ≠ []
      · exact Or.inl hDone
      · rw [not_or, not_not] at hDone
        obtain ⟨r, t, events, Q, hr, hs, hAbs, hFlow, hLess, -⟩ :=
          exists_pipeline_step h hDone.2 (work_pos_of_due hDone.1 hDone.2)
        exact Or.inr ⟨.rule r, t, events, Q, hr, hs, hAbs, hFlow, hLess⟩) h trace
  have hAnswers := pipeline_answers h path
  refine ⟨s', P', later, path, hReached, hAnswers, hGoal.resolve_left ?_⟩
  have hKeep := hReached.conserves.due i
  rw [hReached.requests, hAnswers i] at hKeep
  rw [← List.nil_append (P'.due i), ← hKeep]
  simp [hDue]

theorem exists_get (h : Abstracts s P) {addr : BitVec addrWidth}
    {rest : List (BitVec addrWidth)} (hResponses : (P.flight i).responses = addr :: rest) :
    ∃ s', s.get i = some (addr, s') := by
  obtain ⟨q, hq, -⟩ := Fifo.exists_deq ((h.flight i).responses.trans hResponses)
  simp [get, hq]

theorem load_pos (h : P.load i ≠ 0) :
    0 < (P.flight i).work ∨ (P.flight i).responses ≠ [] := by
  by_cases hIdle : (P.flight i).responses = []
  · left
    simp only [Pipe.load, hIdle, List.length_nil] at h
    omega
  · exact Or.inr hIdle

theorem exists_drain_step (iid : BitVec 32) (h : Abstracts s P) (hLoad : P.load i ≠ 0) :
    ∃ a t events Q, a.Drains ∧ fire iid a s = some (t, events) ∧ Abstracts t Q ∧
      FlowStep P a Q events ∧ Q.load i + Q.errors.length < P.load i + P.errors.length ∧
      (∀ k, k ≠ i → Q.flight k = P.flight k) ∧
      ∀ k, a = .rule (.stage1 k) → (P.flight i).responses = [] ∧ (P.flight i).Settled := by
  cases hResponses : (P.flight i).responses with
  | nil =>
    have hWork := (load_pos hLoad).resolve_right (fun hne => hne hResponses)
    obtain ⟨r, t, events, Q, hr, hs, hAbs, hFlow, hLess, hOthers, hFirst⟩ :=
      exists_pipeline_step h hResponses hWork
    refine ⟨.rule r, t, events, Q, hr, hs, hAbs, hFlow, hLess, hOthers, ?_⟩
    rintro k ⟨⟩
    exact ⟨rfl, hFirst k rfl⟩
  | cons addr rest =>
    obtain ⟨t, ht⟩ := exists_get h hResponses
    obtain ⟨Q, hAbs, hFlow⟩ := get_flow h ht
    refine ⟨.get i, t, _, Q, trivial, by simp [fire, ht], hAbs, hFlow, ?_⟩
    cases hFlow with
    | get _ addr' rest' hEq =>
      refine ⟨by simp [Pipe.load, Pipe.setFlight, Flight.work, hEq], ?_, (fun _ h => by cases h)⟩
      intro k hk
      simp [Pipe.setFlight, hk]

/-- What is left to be done at all. -/
def Pipe.total (P : Pipe addrWidth) : Nat := P.load 0 + P.load 1 + P.errors.length

/-- Relieving one port leaves less to be done at all. -/
theorem exists_total_step (iid : BitVec 32) (h : Abstracts s P) (hLoad : P.load i ≠ 0) :
    ∃ a t events Q, a.Drains ∧ fire iid a s = some (t, events) ∧ Abstracts t Q ∧
      FlowStep P a Q events ∧ Q.total < P.total ∧
      ∀ k, a = .rule (.stage1 k) → (P.flight i).responses = [] ∧ (P.flight i).Settled := by
  obtain ⟨a, t, events, Q, ha, hs, hAbs, hFlow, hLess, hOthers, hFirst⟩ := exists_drain_step iid h hLoad
  refine ⟨a, t, events, Q, ha, hs, hAbs, hFlow, ?_, hFirst⟩
  have hSame : ∀ k, k ≠ i → Q.load k = P.load k := by
    intro k hk
    rw [Pipe.load, hOthers k hk, Pipe.load]
  have hCases : i = 0 ∨ i = 1 := by omega
  rcases hCases with rfl | rfl
  · have hOther := hSame 1 (by decide)
    simp only [Pipe.total]
    omega
  · have hOther := hSame 0 (by decide)
    simp only [Pipe.total]
    omega

theorem exists_report_step (iid : BitVec 32) (h : Abstracts s P) (hErrors : P.errors ≠ []) :
    ∃ t events Q, fire iid (.rule .dmaError) s = some (t, events) ∧ Abstracts t Q ∧
      FlowStep P (.rule .dmaError) Q events ∧ Q.total < P.total := by
  cases hCons : P.errors with
  | nil => exact absurd hCons hErrors
  | cons e rest =>
    obtain ⟨t, hs, hAbs, hFlow⟩ := exists_report h hCons
    exact ⟨t, _, _, hs, hAbs, hFlow, by simp [Pipe.total, Pipe.load, hCons]⟩

theorem outcomes_of_load (h : P.load i = 0) : (P.flight i).outcomes P.tables = [] := by
  simp only [Pipe.load, Flight.work, Nat.add_eq_zero_iff, Nat.mul_eq_zero,
    List.length_eq_zero_iff] at h
  simp_all [Flight.outcomes]

/-- Nothing is left to be done. -/
structure Pipe.Idle (P : Pipe addrWidth) : Prop where
  load : ∀ i, P.load i = 0
  errors : P.errors = []

theorem Pipe.Idle.due (h : P.Idle) (i : Fin 2) : P.due i = [] := by
  rw [Pipe.due, outcomes_of_load (h.load i)]
  rfl

theorem Pipe.Idle.dueErrors (h : P.Idle) : P.dueErrors = 0 := by
  rw [Pipe.dueErrors, outcomes_of_load (h.load 0), outcomes_of_load (h.load 1), h.errors]
  rfl

/-- The unit can be drained: all its answers taken and all its errors reported. -/
theorem drains (iid : BitVec 32) (h : Abstracts s P) (trace : List (Event addrWidth)) :
    ∃ s' P' later, (machine addrWidth iid).Continues (fun _ _ a => a.Drains) (s, trace)
        (s', trace ++ later) ∧ Reached P s' P' later ∧ P'.Idle := by
  refine exists_reached iid Action.Drains (fun _ ha => ha) Pipe.total Pipe.Idle ?_ h trace
  intro s P h
  by_cases hLoad : ∃ i, P.load i ≠ 0
  · obtain ⟨i, hLoad⟩ := hLoad
    obtain ⟨a, t, events, Q, ha, hs, hAbs, hFlow, hLess, -⟩ := exists_total_step iid h hLoad
    exact Or.inr ⟨a, t, events, Q, ha, hs, hAbs, hFlow, hLess⟩
  · push Not at hLoad
    by_cases hErrors : P.errors = []
    · exact Or.inl ⟨hLoad, hErrors⟩
    · obtain ⟨t, events, Q, hs, hAbs, hFlow, hLess⟩ := exists_report_step iid h hErrors
      exact Or.inr ⟨.rule .dmaError, t, events, Q, trivial, hs, hAbs, hFlow, hLess⟩

/-- Draining without looking up new requests. -/
def Action.Settles : Action → Prop
  | .rule (.stage1 _) => False
  | a => a.Drains

theorem Action.settles_of_drains (h : a.Drains) (hFirst : ∀ k, a ≠ .rule (.stage1 k)) : a.Settles := by
  cases a with
  | rule r =>
    cases r with
    | stage1 i => exact hFirst i rfl
    | _ => exact h
  | _ => exact h

theorem Action.Settles.drains (h : a.Settles) : a.Drains := by
  cases a with
  | rule r =>
    cases r with
    | stage1 i => exact h.elim
    | _ => exact h
  | _ => exact h

theorem load_of_not_settled (h : ¬ (P.flight i).Settled) : P.load i ≠ 0 := by
  intro hZero
  simp only [Pipe.load, Flight.work, Nat.add_eq_zero_iff, Nat.mul_eq_zero,
    List.length_eq_zero_iff] at hZero
  exact h ⟨by simp_all, by simp_all, by simp_all, by simp_all⟩

/-- All requests that have been looked up can be settled, and all errors
reported, without looking up others. -/
theorem settles (iid : BitVec 32) (h : Abstracts s P) (trace : List (Event addrWidth)) :
    ∃ s' P' later, (machine addrWidth iid).Continues (fun _ _ a => a.Settles) (s, trace)
        (s', trace ++ later) ∧ Reached P s' P' later ∧ (∀ i, (P'.flight i).Settled) ∧ P'.errors = [] := by
  refine exists_reached iid Action.Settles (fun _ ha => ha.drains) Pipe.total
    (fun P => (∀ i, (P.flight i).Settled) ∧ P.errors = []) ?_ h trace
  intro s P h
  by_cases hOpen : ∃ i, ¬ (P.flight i).Settled
  · obtain ⟨i, hOpen⟩ := hOpen
    obtain ⟨a, t, events, Q, ha, hs, hAbs, hFlow, hLess, hFirst⟩ :=
      exists_total_step iid h (load_of_not_settled hOpen)
    have hSettles := Action.settles_of_drains ha fun k hEq => hOpen (hFirst k hEq).2
    exact Or.inr ⟨a, t, events, Q, hSettles, hs, hAbs, hFlow, hLess⟩
  · push Not at hOpen
    by_cases hErrors : P.errors = []
    · exact Or.inl ⟨hOpen, hErrors⟩
    · obtain ⟨t, events, Q, hs, hAbs, hFlow, hLess⟩ := exists_report_step iid h hErrors
      exact Or.inr ⟨.rule .dmaError, t, events, Q, trivial, hs, hAbs, hFlow, hLess⟩

/-- From here on, as long as the tables stay, every port answers its requests in
order by the present translation and every request that has none is reported,
after what was already in flight; and all of that can be completed at any time. -/
def AnswersByTables (iid : BitVec 32) (s : MMU addrWidth) (trace : List (Event addrWidth)) : Prop :=
  ∃ (backlog : Fin 2 → List (BitVec addrWidth)) (backlogErrors : Multiset MMUError),
    ∀ ok s' next, (machine addrWidth iid).Continues ok (s, trace) (s', trace ++ next) →
      configs next = [] →
      ∃ s'' more, (machine addrWidth iid).Continues (fun _ _ a => a.Drains) (s', trace ++ next)
          (s'', trace ++ next ++ more) ∧
        (∀ i, requests i more = [] ∧ answers i next ++ answers i more =
          backlog i ++ oks ((requests i next).map (s.tables.translate addrWidth))) ∧
        (reports next + reports more : Multiset MMUError) =
          backlogErrors + (errs ((requests 0 next).map (s.tables.translate addrWidth)) +
            errs ((requests 1 next).map (s.tables.translate addrWidth)))

theorem Abstracts.answersByTables (h : Abstracts s P) (trace : List (Event addrWidth)) :
    AnswersByTables iid s trace := by
  refine ⟨P.due, P.dueErrors, ?_⟩
  intro ok s' next path hStatic
  obtain ⟨P', later, hTrace, h', -, hConserves⟩ := continues_flow h path
  obtain rfl := List.append_cancel_left hTrace
  obtain ⟨s'', P'', more, drain, hReached, hIdle⟩ := drains iid h' (trace ++ next)
  have hAll := (hConserves hStatic).trans hReached.conserves
  refine ⟨s'', more, drain, ?_, ?_⟩
  · intro i
    have hAnswers := hAll.due i
    rw [requests_append, hReached.requests, List.append_nil, answers_append, hIdle.due,
      List.append_nil] at hAnswers
    rw [h.tables]
    exact ⟨hReached.requests i, hAnswers.symm⟩
  · have hReports := hAll.errors
    simp only [requests_append, hReached.requests, List.append_nil, reports_append,
      hIdle.dueErrors, add_zero] at hReports
    rw [h.tables, hReports, Multiset.coe_add]

end MMU
end Connectal
