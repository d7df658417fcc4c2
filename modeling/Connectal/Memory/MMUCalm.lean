import Connectal.Memory.MMUProgress

/-! Configuration while translations are under way. A change of the tables of a
scatter list does not concern requests for other scatter lists, so the answers
that a port owes stay the same as long as no scatter list is changed for which a
request still has something to look up. -/
namespace Connectal

open Rules

namespace MMU

variable {addrWidth : Nat} {s s' : MMU addrWidth} {P P' : Pipe addrWidth} {iid : BitVec 32}
  {i : Fin 2}

/-- The scatter lists in which requests of a port still have something to look up. -/
def Flight.ids (F : Flight addrWidth) : List (BitVec 5) :=
  F.selected.map Selected.ptr ++ F.compared.map (fun c => c.req.id) ++
    F.looked.map (fun l => l.1.id) ++ F.incoming.map ReqTup.id

def idsInFlight (s : MMU addrWidth) (i : Fin 2) : List (BitVec 5) :=
  (s.port i).ptrs1.items ++ (s.port i).reqs1.items.map ReqTup.id ++
    (s.port i).reqs0.items.map ReqTup.id ++ (s.port i).incomingReqs.items.map ReqTup.id

theorem Abstracts.idsInFlight (h : Abstracts s P) : s.idsInFlight i = (P.flight i).ids := by
  have hF := h.flight i
  simp only [MMU.idsInFlight, Flight.ids, hF.ptrs1, hF.reqs1, hF.reqs0, hF.incoming, List.map_map]
  rfl

/-- The scatter list whose tables an action changes. -/
def Action.changes (s : MMU addrWidth) : Action → Option (BitVec 5)
  | .sglist pointer _ _ _ => some (pointer.setWidth 5)
  | .region pointer _ _ _ _ _ _ => some (pointer.setWidth 5)
  | .rule .idReturnRule => s.idReturnFifo.items.head?.map fun sglId => sglId.setWidth 5
  | _ => none

/-- An action does not change tables in which requests of the port have something
to look up. -/
def Calm (i : Fin 2) (s : MMU addrWidth) (a : Action) : Prop :=
  ∀ id ∈ a.changes s, id ∉ s.idsInFlight i

instance (i : Fin 2) (s : MMU addrWidth) (a : Action) : Decidable (Calm i s a) :=
  match h : a.changes s with
  | none => .isTrue (by simp [Calm, h])
  | some id => decidable_of_iff (id ∉ s.idsInFlight i) (by simp [Calm, h])

/-- The scatter list that a configuration call is about. -/
def Config.id : Config → BitVec 5
  | .sglist pointer _ _ _ => pointer.setWidth 5
  | .region pointer _ _ _ _ _ _ => pointer.setWidth 5
  | .invalidate sglId => sglId.setWidth 5

section Agreement

variable {T T' : Tables}

/-- Two tables agree on a scatter list. -/
structure Tables.AgreeOn (T T' : Tables) (id : BitVec 5) : Prop where
  regall : T'.regall id = T.regall id
  pages : ∀ index, T'.pages (id, index) = T.pages (id, index)

theorem Tables.agreeOn_apply (T : Tables) {c : Config} {id : BitVec 5} (h : id ≠ c.id) :
    T.AgreeOn (T.apply c) id := by
  cases c with
  | sglist pointer pointerIndex addr len =>
    refine ⟨rfl, fun index => Function.update_of_ne ?_ _ _⟩
    exact fun he => h (congrArg Prod.fst he)
  | region pointer barr8 index8 barr4 index4 barr0 index0 =>
    exact ⟨Function.update_of_ne h _ _, fun _ => rfl⟩
  | invalidate sglId => exact ⟨Function.update_of_ne h _ _, fun _ => rfl⟩

theorem Tables.AgreeOn.outcome {x : Selected} (h : T.AgreeOn T' x.ptr) :
    T'.outcome addrWidth x = T.outcome addrWidth x := by
  simp only [Tables.outcome, Selected.entry, h.pages]

theorem select_ptr (c : Compared) : c.select.ptr = c.req.id := by
  simp only [Compared.select]
  split_ifs <;> rfl

theorem Tables.AgreeOn.decide {l : ReqTup × Option Region} (h : T.AgreeOn T' l.1.id) :
    T'.decide addrWidth l = T.decide addrWidth l := by
  obtain ⟨req, m⟩ := l
  cases m with
  | none => rfl
  | some region => exact Tables.AgreeOn.outcome (by rw [select_ptr]; exact h)

theorem Tables.AgreeOn.translate {req : ReqTup} (h : T.AgreeOn T' req.id) :
    T'.translate addrWidth req = T.translate addrWidth req := by
  rw [Tables.translate, Tables.translate, h.regall]
  exact h.decide

/-- Requests in flight do not notice a change elsewhere. -/
theorem outcomes_agree {F : Flight addrWidth} (h : ∀ id ∈ F.ids, T.AgreeOn T' id) :
    F.outcomes T' = F.outcomes T := by
  simp only [Flight.ids, List.mem_append, List.mem_map] at h
  have hSelected : F.selected.map (T'.outcome addrWidth) = F.selected.map (T.outcome addrWidth) :=
    List.map_congr_left fun x hx => (h _ (.inl (.inl (.inl ⟨x, hx, rfl⟩)))).outcome
  have hCompared : F.compared.map (fun c => T'.outcome addrWidth c.select) =
      F.compared.map (fun c => T.outcome addrWidth c.select) :=
    List.map_congr_left fun c hc =>
      Tables.AgreeOn.outcome (by rw [select_ptr]; exact h _ (.inl (.inl (.inr ⟨c, hc, rfl⟩))))
  have hLooked : F.looked.map (T'.decide addrWidth) = F.looked.map (T.decide addrWidth) :=
    List.map_congr_left fun l hl => (h _ (.inl (.inr ⟨l, hl, rfl⟩))).decide
  have hIncoming : F.incoming.map (T'.translate addrWidth) = F.incoming.map (T.translate addrWidth) :=
    List.map_congr_left fun req hreq => (h _ (.inr ⟨req, hreq, rfl⟩)).translate
  simp only [Flight.outcomes, hSelected, hCompared, hLooked, hIncoming]

end Agreement

/-- A configuration call that is calm leaves the answers that a port owes. -/
theorem due_apply {c : Config} (h : c.id ∉ (P.flight i).ids) :
    Pipe.due { P with tables := P.tables.apply c } i = P.due i := by
  refine congrArg oks (outcomes_agree fun id hid => Tables.agreeOn_apply _ ?_)
  rintro rfl
  exact h hid

/-- A step either leaves the tables alone or is a configuration call. -/
theorem FlowStep.config_cases {a : Action} {events : List (Event addrWidth)}
    (hs : FlowStep P a P' events) :
    configs events = [] ∨ ∃ c, events = [.config c] ∧ P' = { P with tables := P.tables.apply c } := by
  cases hs with
  | sglist | region | invalidate => exact .inr ⟨_, rfl, rfl⟩
  | _ => exact .inl rfl

theorem changes_of_config {a : Action} {c : Config} (hFlow : FlowStep P a P' [.config c])
    (hs : fire iid a s = some (s', [.config c])) : a.changes s = some c.id := by
  cases hFlow with
  | sglist | region => rfl
  | invalidate sglId =>
    simp only [fire, firing, runRule, List.cons.injEq, Event.config.injEq, Config.invalidate.injEq, and_true] at hs
    obtain ⟨first, _, hs, -, rfl⟩ := hs
    simp only [idReturnRule, firing] at hs
    obtain ⟨_, _, hQueue, _, -, _, -, rfl, -⟩ := hs
    exact congrArg (fun items => items.head?.map fun sglId : BitVec 32 => sglId.setWidth 5) hQueue

/-- As long as configuration is calm, a port's answers are the translations of its
requests at the time they were made. -/
theorem fire_due {a : Action} {events : List (Event addrWidth)} (h : Abstracts s P)
    (hs : fire iid a s = some (s', events)) (hCalm : Calm i s a) :
    ∃ P', Abstracts s' P' ∧ FlowStep P a P' events ∧
      P.due i ++ oks ((requests i events).map (P.tables.translate addrWidth)) =
        answers i events ++ P'.due i := by
  obtain ⟨P', hAbs, hFlow⟩ := fire_flow h hs
  refine ⟨P', hAbs, hFlow, ?_⟩
  rcases hFlow.config_cases with hStatic | ⟨c, rfl, rfl⟩
  · exact (hFlow.conserves hStatic).due i
  · have hOther := hCalm c.id (changes_of_config hFlow hs)
    rw [h.idsInFlight] at hOther
    simp [requests, answers, oks, due_apply hOther]

theorem put_due {req : ReqTup} (h : Abstracts s P) (hs : s.put i req = some s') :
    ∃ P', Abstracts s' P' ∧ P'.due i = P.due i ++ oks [s.tables.translate addrWidth req] := by
  have hFire : fire 0 (.put i req) s = some (s', [.requested i req]) := by simp [fire, hs]
  obtain ⟨P', hAbs, -, hDue⟩ := fire_due (i := i) h hFire (fun _ h => by cases h)
  refine ⟨P', hAbs, ?_⟩
  rw [h.tables]
  simpa [requests, answers] using hDue.symm

theorem get_due {addr : BitVec addrWidth} (h : Abstracts s P) (hs : s.get i = some (addr, s')) :
    ∃ P', Abstracts s' P' ∧ P.due i = addr :: P'.due i := by
  have hFire : fire 0 (.get i) s = some (s', [.answered i addr]) := by simp [fire, hs]
  obtain ⟨P', hAbs, -, hDue⟩ := fire_due (i := i) h hFire (fun _ h => by cases h)
  refine ⟨P', hAbs, ?_⟩
  simpa [requests, answers, oks] using hDue

end MMU
end Connectal
