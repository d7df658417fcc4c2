import Connectal.Memory.MMUFlow
import Mathlib.Algebra.Order.Group.Multiset
import Mathlib.Tactic.Abel

/-! Whole runs of the translation unit. As long as the tables stay as they are,
the answers of a port are the translations of its requests, in order, and every
request that cannot be translated is reported once. -/
namespace Connectal

open Rules

namespace MMU

variable {addrWidth : Nat} {s s' : MMU addrWidth} {P P' : Pipe addrWidth} {iid : BitVec 32}

def configs (trace : List (Event addrWidth)) : List Config :=
  trace.filterMap fun | .config c => some c | _ => none

def requests (i : Fin 2) (trace : List (Event addrWidth)) : List ReqTup :=
  trace.filterMap fun | .requested k req => if k = i then some req else none | _ => none

def answers (i : Fin 2) (trace : List (Event addrWidth)) : List (BitVec addrWidth) :=
  trace.filterMap fun | .answered k addr => if k = i then some addr else none | _ => none

def reports (trace : List (Event addrWidth)) : List MMUError :=
  trace.filterMap fun | .reported e => some e | _ => none

/-- The addresses among the outcomes. -/
def oks (outcomes : List (Outcome addrWidth)) : List (BitVec addrWidth) :=
  outcomes.filterMap fun | .ok addr => some addr | .error _ => none

/-- The errors among the outcomes. -/
def errs (outcomes : List (Outcome addrWidth)) : List MMUError :=
  outcomes.filterMap fun | .ok _ => none | .error e => some e

/-- The answers that a port is going to give. -/
def Pipe.due (P : Pipe addrWidth) (i : Fin 2) : List (BitVec addrWidth) :=
  oks ((P.flight i).outcomes P.tables)

/-- The errors that are going to be reported. -/
def Pipe.dueErrors (P : Pipe addrWidth) : Multiset MMUError :=
  P.errors + (errs ((P.flight 0).outcomes P.tables) + errs ((P.flight 1).outcomes P.tables))

@[simp] theorem oks_append (a b : List (Outcome addrWidth)) : oks (a ++ b) = oks a ++ oks b := by
  simp [oks]

@[simp] theorem errs_append (a b : List (Outcome addrWidth)) : errs (a ++ b) = errs a ++ errs b := by
  simp [errs]

@[simp] theorem configs_append (first second : List (Event addrWidth)) :
    configs (first ++ second) = configs first ++ configs second := by
  simp [configs]

@[simp] theorem requests_append (i : Fin 2) (first second : List (Event addrWidth)) :
    requests i (first ++ second) = requests i first ++ requests i second := by
  simp [requests]

@[simp] theorem answers_append (i : Fin 2) (first second : List (Event addrWidth)) :
    answers i (first ++ second) = answers i first ++ answers i second := by
  simp [answers]

@[simp] theorem reports_append (first second : List (Event addrWidth)) :
    reports (first ++ second) = reports first ++ reports second := by
  simp [reports]

section Outcomes

variable (T : Tables) (F : Flight addrWidth)

theorem outcomes_put (req : ReqTup) :
    Flight.outcomes T { F with incoming := F.incoming ++ [req] } =
      F.outcomes T ++ [T.translate addrWidth req] := by
  simp [Flight.outcomes]

/-- A request without region record leaves its place among the outcomes. -/
theorem outcomes_invalid {req : ReqTup} {rest : List (ReqTup × Option Region)}
    (h : F.looked = (req, none) :: rest) :
    ∃ older newer, F.outcomes T = older ++ .error req.invalid :: newer ∧
      Flight.outcomes T { F with looked := rest } = older ++ newer := by
  refine ⟨F.responses.map .ok ++ F.paged.map (fun x => .ok (x.1.address addrWidth x.2)) ++
    F.selected.map (T.outcome addrWidth) ++ F.compared.map (fun c => T.outcome addrWidth c.select),
    rest.map (T.decide addrWidth) ++ F.incoming.map (T.translate addrWidth), ?_, ?_⟩
  · simp [Flight.outcomes, h, Tables.decide]
  · simp [Flight.outcomes]

/-- So does a request beyond the last page. -/
theorem outcomes_outOfRange {x : Selected} {rest : List Selected} (h : F.selected = x :: rest)
    (hClass : x.off.pageSize = 0#2) :
    ∃ older newer, F.outcomes T = older ++ .error x.outOfRange :: newer ∧
      Flight.outcomes T { F with selected := rest } = older ++ newer := by
  have hError : T.outcome addrWidth x = .error x.outOfRange := if_pos hClass
  refine ⟨F.responses.map .ok ++ F.paged.map (fun x => .ok (x.1.address addrWidth x.2)),
    rest.map (T.outcome addrWidth) ++ F.compared.map (fun c => T.outcome addrWidth c.select) ++
      F.looked.map (T.decide addrWidth) ++ F.incoming.map (T.translate addrWidth), ?_, ?_⟩
  · simp [Flight.outcomes, h, hError]
  · simp [Flight.outcomes]

end Outcomes

/-- What a step leaves unchanged at every port, and what it adds. -/
structure Conserves (P P' : Pipe addrWidth) (events : List (Event addrWidth)) : Prop where
  tables : P'.tables = P.tables
  due : ∀ i, P.due i ++ oks ((requests i events).map (P.tables.translate addrWidth)) =
    answers i events ++ P'.due i
  errors : P.dueErrors + (errs ((requests 0 events).map (P.tables.translate addrWidth)) +
    errs ((requests 1 events).map (P.tables.translate addrWidth))) =
    (reports events : Multiset MMUError) + P'.dueErrors

theorem Conserves.refl (P : Pipe addrWidth) : Conserves P P [] := by
  constructor
  · rfl
  · intro i
    simp [requests, answers, oks]
  · simp [requests, reports, errs]

theorem Conserves.trans {P'' : Pipe addrWidth} {first second : List (Event addrWidth)}
    (h : Conserves P P' first) (h' : Conserves P' P'' second) :
    Conserves P P'' (first ++ second) := by
  constructor
  · rw [h'.tables, h.tables]
  · intro i
    have hFirst := h.due i
    have hSecond := h'.due i
    rw [h.tables] at hSecond
    simp only [requests_append, answers_append, List.map_append, oks_append]
    rw [← List.append_assoc, hFirst, List.append_assoc, hSecond, List.append_assoc]
  · have hSecond := h'.errors
    rw [h.tables] at hSecond
    simp only [requests_append, reports_append, List.map_append, errs_append, ← Multiset.coe_add]
    calc _ = P.dueErrors + (errs ((requests 0 first).map (P.tables.translate addrWidth)) +
            errs ((requests 1 first).map (P.tables.translate addrWidth))) +
            (errs ((requests 0 second).map (P.tables.translate addrWidth)) +
              errs ((requests 1 second).map (P.tables.translate addrWidth))) := by abel
      _ = (reports first : Multiset MMUError) + (reports second + P''.dueErrors) := by
          rw [h.errors, add_assoc, hSecond]
      _ = _ := by rw [add_assoc]

variable {events : List (Event addrWidth)} {F : Flight addrWidth}

/-- A step at one port, judged at that port alone. -/
theorem Conserves.atPort {i : Fin 2} {errors : List MMUError}
    (hOther : ∀ k, k ≠ i → requests k events = [] ∧ answers k events = [])
    (hDue : oks ((P.flight i).outcomes P.tables) ++
      oks ((requests i events).map (P.tables.translate addrWidth)) =
      answers i events ++ oks (F.outcomes P.tables))
    (hErr : (P.errors : Multiset MMUError) + (errs ((P.flight i).outcomes P.tables) +
      errs ((requests i events).map (P.tables.translate addrWidth))) =
      (reports events : Multiset MMUError) + (errors + errs (F.outcomes P.tables))) :
    Conserves P { P.setFlight i F with errors } events := by
  refine ⟨rfl, ?_, ?_⟩
  · intro k
    by_cases hk : k = i
    · subst hk
      simpa [Pipe.due, Pipe.setFlight] using hDue
    · obtain ⟨hReq, hAns⟩ := hOther k hk
      simp [Pipe.due, Pipe.setFlight, hk, hReq, hAns, oks]
  · have hCases : i = 0 ∨ i = 1 := by omega
    rcases hCases with rfl | rfl
    · obtain ⟨hReq, -⟩ := hOther 1 (by decide)
      simp only [Pipe.dueErrors, Pipe.setFlight, Function.update_self,
        Function.update_of_ne (show (1 : Fin 2) ≠ 0 by decide), hReq, List.map_nil,
        show errs ([] : List (Outcome addrWidth)) = [] from rfl, Multiset.coe_nil, add_zero]
      calc _ = (P.errors : Multiset MMUError) + (errs ((P.flight 0).outcomes P.tables) +
              errs ((requests 0 events).map (P.tables.translate addrWidth))) +
              errs ((P.flight 1).outcomes P.tables) := by abel
        _ = _ := by rw [hErr]; abel
    · obtain ⟨hReq, -⟩ := hOther 0 (by decide)
      simp only [Pipe.dueErrors, Pipe.setFlight, Function.update_self,
        Function.update_of_ne (show (0 : Fin 2) ≠ 1 by decide), hReq, List.map_nil,
        show errs ([] : List (Outcome addrWidth)) = [] from rfl, Multiset.coe_nil, zero_add]
      calc _ = (P.errors : Multiset MMUError) + (errs ((P.flight 1).outcomes P.tables) +
              errs ((requests 1 events).map (P.tables.translate addrWidth))) +
              errs ((P.flight 0).outcomes P.tables) := by abel
        _ = _ := by rw [hErr]; abel

/-- A step inside one port that neither takes a request nor gives an answer. -/
theorem Conserves.inside {i : Fin 2} (hOutcomes : F.outcomes P.tables = (P.flight i).outcomes P.tables)
    (hQuiet : (∀ k, requests k events = [] ∧ answers k events = []) ∧ reports events = []) :
    Conserves P (P.setFlight i F) events := by
  refine Conserves.atPort (fun k _ => hQuiet.1 k) ?_ ?_
  · simp [hOutcomes, (hQuiet.1 i).1, (hQuiet.1 i).2, oks]
  · simp [hOutcomes, (hQuiet.1 i).1, hQuiet.2, errs]

theorem Conserves.reject {i : Fin 2} {e : MMUError} {older newer : List (Outcome addrWidth)}
    (hBefore : (P.flight i).outcomes P.tables = older ++ .error e :: newer)
    (hAfter : F.outcomes P.tables = older ++ newer) :
    Conserves P { P.setFlight i F with errors := P.errors ++ [e] } [.rejected i e] := by
  refine Conserves.atPort (fun k _ => ⟨rfl, rfl⟩) ?_ ?_
  · simp [hBefore, hAfter, oks, requests, answers]
  · simp only [hBefore, hAfter, requests, reports, counting, List.map_nil, errs_append, ← Multiset.coe_add,
      Multiset.coe_nil, zero_add]
    have hCons : errs (.error e :: newer) = e :: errs newer := rfl
    rw [hCons, ← Multiset.cons_coe, ← Multiset.singleton_add, ← Multiset.coe_singleton,
      show errs ([] : List (Outcome addrWidth)) = [] from rfl, Multiset.coe_nil]
    abel

/-- As long as the tables stay, nothing is lost or invented. -/
theorem FlowStep.conserves {a : Action}
    (hs : FlowStep P a P' events) (hStatic : configs events = []) : Conserves P P' events := by
  cases hs with
  | put i req =>
    refine Conserves.atPort ?_ ?_ ?_
    · intro k hk
      simp [requests, answers, Ne.symm hk]
    · simp [outcomes_put, requests, answers]
    · simp only [outcomes_put, requests, reports, counting, if_true, List.map_cons, List.map_nil, errs_append,
        ← Multiset.coe_add, Multiset.coe_nil, zero_add]
  -- a request keeps its place among the outcomes when it goes on to the next stage
  | look i req rest h | pass i req region rest h | select i c rest h | respond i x rest h =>
    exact Conserves.inside (by simp [Flight.outcomes, h, Tables.translate, Tables.decide])
      ⟨fun _ => ⟨rfl, rfl⟩, rfl⟩
  | invalid i req rest h =>
    obtain ⟨older, newer, hBefore, hAfter⟩ := outcomes_invalid P.tables _ h
    exact Conserves.reject hBefore hAfter
  | outOfRange i x rest h hClass =>
    obtain ⟨older, newer, hBefore, hAfter⟩ := outcomes_outOfRange P.tables _ h hClass
    exact Conserves.reject hBefore hAfter
  | page i x rest h hClass =>
    have hOk : P.tables.outcome addrWidth x = .ok _ := if_neg hClass
    exact Conserves.inside (by simp [Flight.outcomes, h, hOk]) ⟨fun _ => ⟨rfl, rfl⟩, rfl⟩
  | get i addr rest h =>
    have hOut : (P.flight i).outcomes P.tables =
        .ok addr :: Flight.outcomes P.tables { P.flight i with responses := rest } := by
      simp [Flight.outcomes, h]
    refine Conserves.atPort ?_ ?_ ?_
    · intro k hk
      simp [requests, answers, Ne.symm hk]
    · simp [hOut, oks, requests, answers]
    · simp [hOut, errs, requests, reports]
  | report e rest h =>
    refine ⟨rfl, fun i => ?_, ?_⟩
    · simp [Pipe.due, requests, answers, oks]
    · simp only [Pipe.dueErrors, h, requests, reports, counting, List.map_nil,
        show errs ([] : List (Outcome addrWidth)) = [] from rfl, Multiset.coe_nil, add_zero]
      rw [← Multiset.cons_coe, ← Multiset.singleton_add, Multiset.coe_singleton]
      abel
  | sglist | region | invalidate => simp [configs] at hStatic
  | _ => exact ⟨rfl, fun i => by simp [requests, answers, oks], by simp [requests, reports, errs]⟩

theorem FlowStep.tables {a : Action}
    (hs : FlowStep P a P' events) : P'.tables = (configs events).foldl Tables.apply P.tables := by
  cases hs <;> rfl

variable {ok : Machine.Contract (MMU addrWidth) Action (Event addrWidth)}

theorem run_abstracts {trace : List (Event addrWidth)} (run : (machine addrWidth iid).Run ok s trace) :
    ∃ P, Abstracts s P := by
  refine run.invariant (fun _ s => ∃ P, Abstracts s P) ?_ ?_
  · rintro s ⟨tagMem, regMem, pageMem, rfl⟩
    exact ⟨_, powerUp_abstracts tagMem regMem pageMem⟩
  · rintro trace s action s' events ⟨P, h⟩ - hs
    obtain ⟨P', h', -⟩ := fire_flow h hs
    exact ⟨P', h'⟩

/-- Whole continuations: the tables are those that the configuration calls make,
and without such calls nothing is lost or invented. -/
theorem continues_flow {trace trace' : List (Event addrWidth)} (h : Abstracts s P)
    (path : (machine addrWidth iid).Continues ok (s, trace) (s', trace')) :
    ∃ P' later, trace' = trace ++ later ∧ Abstracts s' P' ∧
      P'.tables = (configs later).foldl Tables.apply P.tables ∧
      (configs later = [] → Conserves P P' later) := by
  refine path.invariant (fun t s' => ∃ P' later, t = trace ++ later ∧ Abstracts s' P' ∧
    P'.tables = (configs later).foldl Tables.apply P.tables ∧
    (configs later = [] → Conserves P P' later)) ?_
    ⟨P, [], by simp, h, rfl, fun _ => Conserves.refl P⟩
  rintro t u action u' events ⟨P', later, rfl, h', hTables, hConserves⟩ - hs
  obtain ⟨P'', h'', hFlow⟩ := fire_flow h' hs
  refine ⟨P'', later ++ events, by simp, h'', ?_, ?_⟩
  · rw [hFlow.tables, hTables, configs_append, List.foldl_append]
  · intro hStatic
    rw [configs_append, List.append_eq_nil_iff] at hStatic
    exact (hConserves hStatic.1).trans (hFlow.conserves hStatic.2)

end MMU
end Connectal
